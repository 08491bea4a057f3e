/-
  The saved audio under a source: what the worker's calls and everybody else's moves do to it.

  The file only grows. As long as its owner can still append, the owner's clock is the end of
  the saved audio, so that the clock never runs past what the file can say.
-/
import FlyOnTheWall.Failover.Outline

namespace FlyOnTheWall.Stream

open Lib Replay Coverage Endpoint Handoff List Option World

variable {S : Setup}

/-! ## The end of the audio -/

variable (w : World S)

/-- The file the worker's reader reads. -/
def World.file : DurableFile := w.live.file

/-- The end of the complete samples in the file. -/
def World.saved : ℕ :=
  w.reader.firstSample + (w.file.bytes.length - w.reader.audioOffset) / 2

/-- The header is there, the clock holds the end of the audio, and an owner that can append
    stands exactly there. -/
structure Stored : Prop where
  inside : w.reader.audioOffset ≤ w.file.bytes.length
  fits : w.saved ≤ u64Max
  owner : ∀ writer, w.stream.owner = some writer → CanAppend writer →
    writer.endSample = w.saved ∧ (w.file.bytes.length - w.reader.audioOffset) % 2 = 0

variable {w v : World S} {u : World S}

theorem Stored.availableEnd (h : Stored w) : w.live.availableEnd = .ok w.saved :=
  Reader.availableEnd_eq_ok.mpr ⟨h.inside, rfl, h.fits⟩

/-- The probe of a commit succeeds up to the end of the audio. -/
theorem Stored.probe (h : Stored w) (n : ℕ) :
    (∃ pcm, w.live.readFrom n 1 = .ok pcm) ↔ w.reader.firstSample ≤ n ∧ n ≤ w.saved :=
  Reader.readFrom_one_isOk h.availableEnd n

/-- The file may have grown. -/
structure Extends (w v : World S) : Prop where
  reader : v.reader = w.reader
  bytes : w.file.bytes <+: v.file.bytes

theorem Extends.refl (w : World S) : Extends w w := ⟨rfl, prefix_refl _⟩

theorem Extends.trans (h1 : Extends u v) (h2 : Extends v w) : Extends u w :=
  ⟨h2.reader.trans h1.reader, h1.bytes.trans h2.bytes⟩

theorem Extends.saved_le (h : Extends w v) : w.saved ≤ v.saved := by
  have hlen := h.bytes.length_le
  unfold saved
  rw [h.reader]
  omega

/-- Nothing changed but perhaps what is synced and who owns the stream. -/
theorem Stored.same (h : Stored w) (hreader : v.reader = w.reader)
    (hbytes : v.file.bytes = w.file.bytes)
    (howner : ∀ writer, v.stream.owner = some writer → CanAppend writer →
      w.stream.owner = some writer) : Stored v ∧ Extends w v := by
  have hsaved : v.saved = w.saved := by
    unfold saved
    rw [hreader, hbytes]
  refine ⟨⟨?_, hsaved ▸ h.fits, fun writer hw hcan => ?_⟩, hreader, hbytes ▸ prefix_refl _⟩
  · rw [hreader, hbytes]
    exact h.inside
  · rw [hsaved, hbytes, hreader]
    exact h.owner writer (howner writer hw hcan) hcan

theorem Stored.of_stream (h : Stored w) (hstream : v.stream = w.stream)
    (hreader : v.reader = w.reader) : Stored v ∧ Extends w v := by
  refine h.same hreader ?_ fun _ hw _ => hstream ▸ hw
  show (v.stream.dir.audio.getD v.reader.file).bytes = _
  rw [hstream, hreader]
  rfl

/-! ## Calls of the worker -/

theorem onJournal_bytes {α : Type}
    {call : Coverage.Io → Journal.Left → Except IoError α × Journal.Left}
    (htouched : ∀ io left, Touched left.audio (call io left).2.audio) :
    (w.onJournal call).2.file.bytes = w.file.bytes := by
  have h := htouched (S.journalIo w.journalCalls) ⟨w.journal, w.journalFile, w.live⟩
  show (call _ _).2.audio.file.bytes = w.live.file.bytes
  rcases h with h | h
  · rw [h]
  · rw [h]
    rfl

/-- A commit or a skip. -/
def World.journalRecord (throughSample : ℕ) (segments : List TranscriptSegment)
    (gap : Option String) (w : World S) : Except SttError CommitOutcome × World S :=
  w.onJournal fun io left => Journal.record S.codec io left w.journal.epoch.number
    w.journal.committed throughSample segments gap

theorem record_touched (codec : Codec Coverage.Entry) (io : Coverage.Io) (left : Journal.Left)
    (epoch fromSample throughSample : ℕ) (segments : List TranscriptSegment)
    (gap : Option String) :
    Touched left.audio
      (Journal.record codec io left epoch fromSample throughSample segments gap).2.audio :=
  (Journal.record_acts codec io left epoch fromSample throughSample segments gap).touched

theorem Stored.journalRecord (h : Stored w) (throughSample : ℕ) (segments : List TranscriptSegment)
    (gap : Option String) : Stored (w.journalRecord throughSample segments gap).2 ∧
      Extends w (w.journalRecord throughSample segments gap).2 :=
  h.same rfl (onJournal_bytes fun io left => record_touched _ io left _ _ _ _ _)
    fun _ hw _ => hw

theorem Stored.journalSwitch (h : Stored w) (engine : EngineDescriptor) (reason : SwitchReason) :
    Stored (w.journalSwitch engine reason).2 ∧ Extends w (w.journalSwitch engine reason).2 :=
  h.same rfl (onJournal_bytes fun io left =>
    (Journal.switch_acts _ io left engine reason).touched) fun _ hw _ => hw

/-- A commit or skip of the worker: the journal has the interval, or what it had. -/
theorem record_wrote (w : World S) (throughSample : ℕ) (segments : List TranscriptSegment)
    (gap : Option String) :
    let r := w.journalRecord throughSample segments gap
    (r.1 ≠ .ok .new ∧ ∃ failed validBytes, r.2.journal = { w.journal with failed, validBytes }) ∨
      (Valid w.journal w.live (.committed (w.handed throughSample segments gap)) ∧
        ∃ validBytes, r.2.journal =
          { w.journal.accept (w.handed throughSample segments gap) with
            validBytes }) := by
  rcases (Journal.record_acts S.codec (S.journalIo w.journalCalls)
    ⟨w.journal, w.journalFile, w.live⟩ w.journal.epoch.number w.journal.committed throughSample
    segments gap).wrote with ⟨hresult, hjournal⟩ | ⟨-, hvalid, hjournal⟩
  · refine .inl ⟨fun hnew => hresult (.committed (w.handed throughSample segments gap)) ?_,
      hjournal⟩
    rw [mapError_eq_ok hnew]
    rfl
  · exact .inr ⟨hvalid, hjournal⟩

theorem record_sound (hsound : Coverage.Sound w.journal) (throughSample : ℕ)
    (segments : List TranscriptSegment) (gap : Option String) :
    Coverage.Sound (w.journalRecord throughSample segments gap).2.journal :=
  (Journal.record_acts _ _ ⟨w.journal, w.journalFile, w.live⟩ _ _ _ _ _).sound hsound

/-- A switch: the journal has the new epoch, or what it had. -/
theorem switch_wrote (w : World S) (engine : EngineDescriptor) (reason : SwitchReason) :
    let r := w.journalSwitch engine reason
    ((∀ epoch, r.1 ≠ .ok epoch) ∧ ∃ failed validBytes,
        r.2.journal = { w.journal with failed, validBytes }) ∨
      ∃ epoch validBytes, epoch.engine = engine ∧ r.1 = .ok epoch ∧
        r.2.journal = { w.journal.pushEpoch epoch with validBytes } := by
  intro r
  have hacts := (Journal.switch_acts S.codec (S.journalIo w.journalCalls)
    ⟨w.journal, w.journalFile, w.live⟩ engine reason).wrote
  cases hcall : (Journal.switch S.codec (S.journalIo w.journalCalls)
    ⟨w.journal, w.journalFile, w.live⟩ engine reason).1 with
  | error e =>
    rw [hcall] at hacts
    have hr : r.1 = .error (S.ioFailure e) := congrArg (Except.mapError S.ioFailure) hcall
    rcases hacts with ⟨-, hjournal⟩ | ⟨hresult, -⟩
    · exact .inl ⟨fun epoch hok => (nomatch hr.symm.trans hok), hjournal⟩
    · cases hresult
  | ok epoch =>
    rw [hcall] at hacts
    rcases hacts with ⟨hresult, -⟩ | ⟨hresult, -, validBytes, hjournal⟩
    · exact (hresult _ rfl).elim
    · cases hresult
      exact .inr ⟨_, validBytes, rfl, congrArg (Except.mapError S.ioFailure) hcall, hjournal⟩

section
variable (h : Stored w)
include h

theorem Stored.markComplete (last : ℕ) :
    Stored (w.markComplete last).2 ∧ Extends w (w.markComplete last).2 :=
  h.same rfl (markComplete_audio.1.getD_bytes _) fun _ hw _ => hw

/-! ## Moves of the others -/

/-- Samples reach the file, at most as many as the clock has room for. -/
theorem Stored.grow {writer : Writer} (howner : w.stream.owner = some writer)
    (hcan : CanAppend writer) {pcm : List Sample} (hroom : writer.endSample + pcm.length ≤ u64Max)
    {io : AppendIo} (hreader : v.reader = w.reader)
    (hfile : v.file = (w.file.writeAll (encodePcm pcm) io.write).1)
    (hnext : ∀ other, v.stream.owner = some other → CanAppend other →
      (w.file.writeAll (encodePcm pcm) io.write).2 = true ∧
        other.endSample = writer.endSample + pcm.length) : Stored v ∧ Extends w v := by
  obtain ⟨hclock, heven⟩ := h.owner writer howner hcan
  obtain ⟨part, hpart, hbytes, -⟩ := w.file.writeAll_bytes (encodePcm pcm) io.write
  have hpartLen : part.length ≤ 2 * pcm.length := by
    rw [← encodePcm_length]
    exact hpart.length_le
  have hinside := h.inside
  have hsaved : w.saved = w.reader.firstSample +
    (w.file.bytes.length - w.reader.audioOffset) / 2 := rfl
  refine ⟨⟨?_, ?_, fun other hother hcan' => ?_⟩, hreader, ?_⟩
  · rw [hfile, hbytes, length_append, hreader]
    omega
  · unfold saved
    rw [hfile, hbytes, length_append, hreader]
    omega
  · obtain ⟨hdone, hend⟩ := hnext other hother hcan'
    unfold saved
    rw [hfile, (DurableFile.writeAll_complete hdone).1, length_append, encodePcm_length,
      hreader, hend]
    omega
  · rw [hfile, hbytes]
    exact prefix_append _ _

theorem Stored.append (io : AppendIo) (pcm : List Sample) :
    Stored { w with stream := (w.stream.append io pcm).2 } ∧
      Extends w { w with stream := (w.stream.append io pcm).2 } := by
  rcases append_cases io w.stream pcm with heq | ⟨writer, file, r, howner, hfile, happended, heq⟩
  · rw [heq]
    exact ⟨h, .refl w⟩
  rw [heq]
  obtain rfl : w.file = file := by
    show w.stream.dir.audio.getD w.reader.file = file
    rw [hfile]
    rfl
  -- an owner that failed does not append again
  cases happended with
  | refused | nothing => exact ⟨h, .refl w⟩
  | stuck =>
    refine h.same rfl rfl fun other hother hcan => ?_
    cases hother
    exact nomatch hcan.healthy
  | torn hcan hroom =>
    refine h.grow howner hcan hroom rfl rfl fun other hother hcan' => ?_
    cases hother
    exact nomatch hcan'.healthy
  | written hcan hroom hdone =>
    refine h.grow howner hcan hroom rfl rfl fun other hother _ => ⟨hdone, ?_⟩
    cases hother
    rfl

theorem Stored.sealInput (io : MarkIo) :
    Stored { w with stream := (w.stream.sealStream S.json io (replaySource S.source)).2 } ∧
      Extends w { w with stream := (w.stream.sealStream S.json io (replaySource S.source)).2 } := by
  rcases sealStream_cases S.json io w.stream (replaySource S.source) with
    heq | ⟨writer, r, -, hsealed, heq⟩
  · rw [heq]
    exact ⟨h, .refl w⟩
  rw [heq]
  cases hsealed with
  | stopped _ haudio => exact h.same rfl (haudio.getD_bytes _) fun _ hw _ => hw
  | done haudio =>
    refine h.same rfl (haudio.getD_bytes _) fun other hother hcan => ?_
    cases hother
    exact nomatch hcan.unsealed

theorem Stored.sync (writer : Writer) (synced : Bool) :
    Stored { w with stream := (w.stream.syncAs writer synced).2 } ∧
      Extends w { w with stream := (w.stream.syncAs writer synced).2 } := by
  unfold Stream.syncAs
  split
  · exact ⟨h, .refl w⟩
  split
  · refine h.same rfl ?_ fun _ hw _ => hw
    show ((w.stream.dir.audio.map DurableFile.sync).getD w.reader.file).bytes =
      (w.stream.dir.audio.getD w.reader.file).bytes
    cases w.stream.dir.audio <;> rfl
  · refine h.same rfl rfl fun other hother hcan => ?_
    cases hother
    exact nomatch hcan.healthy

end

theorem Foreign.trans (h1 : Foreign u v) (h2 : Foreign v w) : Foreign u w :=
  ⟨h2.journal.trans h1.journal, h2.cloud.trans h1.cloud, h2.localCursor.trans h1.localCursor,
    h2.localBase.trans h1.localBase, h2.localEndpoint.trans h1.localEndpoint,
    h2.minted.trans h1.minted⟩

theorem terminal_private (w : World S) (error : Option SttError) :
    (w.terminal error).stream = w.stream ∧ (w.terminal error).reader = w.reader ∧
      (w.terminal error).cloud = w.cloud ∧ Foreign w (w.terminal error) := by
  unfold terminal
  split
  · exact ⟨rfl, rfl, rfl, .refl w⟩
  · exact ⟨rfl, rfl, rfl, rfl, rfl, rfl, rfl, rfl, rfl⟩

variable {move : Move}

theorem move_append {io : AppendIo} {pcm : List Sample} (hmove : w.move (.append io pcm) = some v) :
    v = { w with stream := (w.stream.append io pcm).2 } := by
  change (if w.stopRequested then none else some _) = some v at hmove
  split at hmove <;> cases hmove
  rfl

/-- A move of the others leaves the worker's side alone. Only the provider adds to what it has
    sent, and nothing is published except by a terminal transition. -/
theorem move_effect (hmove : w.move move = some v) : Foreign w v ∧
    (v.inbox ⊆ w.inbox ∨ ∃ event, move = .provider event ∧ v.inbox ⊆ w.inbox ++ [event]) ∧
    ((∃ error, move = .terminal error ∧ v = w.terminal (some error)) ∨
      v.gate = w.gate ∧ v.events = w.events) := by
  have hsame (hcloud : v.cloud = w.cloud) : v.inbox ⊆ w.inbox := by
    unfold inbox
    rw [hcloud]
    exact Subset.refl _
  cases move with
  | append io pcm =>
    obtain rfl := move_append hmove
    exact ⟨⟨rfl, rfl, rfl, rfl, rfl, rfl⟩, .inl (hsame rfl), .inr ⟨rfl, rfl⟩⟩
  | sync synced | storeEnd =>
    obtain ⟨_, _, rfl⟩ := map_eq_some_iff.mp hmove
    exact ⟨⟨rfl, rfl, rfl, rfl, rfl, rfl⟩, .inl (hsame rfl), .inr ⟨rfl, rfl⟩⟩
  | sealInput io | requestStop | closeInput | clock elapsedMs =>
    cases hmove
    exact ⟨⟨rfl, rfl, rfl, rfl, rfl, rfl⟩, .inl (hsame rfl), .inr ⟨rfl, rfl⟩⟩
  | terminal error =>
    cases hmove
    obtain ⟨-, -, hcloud, hforeign⟩ := terminal_private w (some error)
    exact ⟨hforeign, .inl (hsame hcloud), .inl ⟨error, rfl, rfl⟩⟩
  | provider event =>
    obtain ⟨cloud, hcloud, rfl⟩ := map_eq_some_iff.mp hmove
    refine ⟨⟨rfl, by rw [hcloud]; rfl, rfl, rfl, rfl, rfl⟩, .inr ⟨event, rfl, ?_⟩, .inr ⟨rfl, rfl⟩⟩
    unfold inbox
    rw [hcloud]
    exact Subset.refl _
  | disconnect | room free =>
    obtain ⟨cloud, hcloud, rfl⟩ := map_eq_some_iff.mp hmove
    refine ⟨⟨rfl, by rw [hcloud]; rfl, rfl, rfl, rfl, rfl⟩, .inl ?_, .inr ⟨rfl, rfl⟩⟩
    unfold inbox
    rw [hcloud]
    exact Subset.refl _

/-- Every move of the others keeps the audio. -/
theorem move_stored (h : Stored w) (hmove : w.move move = some v) : Stored v ∧ Extends w v := by
  cases move with
  | append io pcm =>
    obtain rfl := move_append hmove
    exact h.append io pcm
  | sync synced =>
    obtain ⟨writer, -, rfl⟩ := map_eq_some_iff.mp hmove
    exact h.sync writer synced
  | sealInput io =>
    cases hmove
    exact h.sealInput io
  | requestStop | closeInput | clock elapsedMs =>
    cases hmove
    exact h.of_stream rfl rfl
  | terminal error =>
    cases hmove
    obtain ⟨hstream, hreader, -⟩ := terminal_private w (some error)
    exact h.of_stream hstream hreader
  | storeEnd | provider event | disconnect | room free =>
    obtain ⟨_, _, rfl⟩ := map_eq_some_iff.mp hmove
    exact h.of_stream rfl rfl

end FlyOnTheWall.Stream
