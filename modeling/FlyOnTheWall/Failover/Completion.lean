/-
  Completion of a source: `FailoverStream::write` and `finish` against `Worker::complete`.

  The capture side appends, publishes its end, seals the stream and closes the input. The
  worker loads the published end early in a pass and tests the closed flag at the end of the
  same pass, and completes at the end it has loaded. A write that is published in between is
  sealed but not covered by that end: `complete_stale`. On every interleaving in which the end
  has not moved when a worker that is through with it finds the flag set, the source completes
  at the sealed end: `completes_sealed`.

  The interleavings are those in which no call on the disk, the journal or the recogniser
  fails. Three things end a source without a decision of the worker to complete, and are
  counted as such (`Excuse`): a final error of the provider, the loss of the provider where no
  local engine was selected, and the deadline of `finish`.
-/
import FlyOnTheWall.Failover.Publication

namespace FlyOnTheWall.Stream

open Lib Replay Coverage Endpoint Handoff List Option Triple World Proc

variable {S : Setup}

/-! ## The capture side -/

/-- The error of `finish` when its deadline has passed. -/
def drainTimeout : SttError := failure "transcription drain timed out; audio retained for retry"

variable (w : World S)

/-- The seal a reader of the source sees. -/
def World.sealedEnd : Except IoError (Option ℕ) :=
  w.live.sealedEnd S.json w.stream.dir

/-- Moves that fit a sequence of writes followed by `finish`, with no call on the disk failing.
    A write holds the writer's lock until its end is published, so the seal finds it published;
    the input is closed after the seal. -/
def World.orderly : Move → Bool
  | .append io pcm => (w.stream.append io pcm).1.any (·.isOk)
  | .sync synced => synced
  | .sealInput io =>
    let r := w.stream.sealStream S.json io (replaySource S.source)
    w.stream.owner.any (·.endSample == w.endSample) && r.1.any (·.isOk) &&
      (match World.sealedEnd { w with stream := r.2 } with
        | .ok (some _) => true
        | _ => false)
  | .closeInput => w.stream.owner.any (·.isSealed)
  | .terminal error => error = drainTimeout
  | .provider (.error error) => error.provider != "handoff"
  | _ => true

def World.attend (move : Move) (w : World S) : Option (World S) :=
  if w.orderly move then w.move move else none

/-- No call of the worker on the disk, the journal or the recogniser fails. The completion
    mark is not among them: that it can be set is to be shown. -/
def callSucceeds (name : Label) (w : World S) : Bool :=
  match name with
  | .readAudio cursor last => (w.readPcm cursor last).1.isOk
  | .transcribe chunk => (S.recognize w.inferences chunk.samples).isOk
  | .commit throughSample segments => (w.journalCommit throughSample segments).1.isOk
  | .skip throughSample reason => (w.journalSkip throughSample reason).1.isOk
  | .switch engine reason => (w.journalSwitch engine reason).1.isOk
  | _ => true

/-- When the input is found closed with all that this pass has loaded committed or read by the
    local engine, so that the worker may complete, the end is still the one it has loaded. -/
def endUnmoved (name : Label) (w : World S) : Bool :=
  match name with
  | .closedTest last => decide (w.inputClosed = true →
      w.journal.committed = last ∨ w.localCursor = last → w.endSample = last)
  | _ => true

/-! ## The invariant -/

/-- The owner of a healthy capture stands at the end of the saved audio; once it has sealed,
    its end is published and the seal says so; the input is closed after that. -/
structure Capturing (writer : Writer) : Prop where
  owner : w.stream.owner = some writer
  healthy : writer.failed = false
  whole : writer.prefixOnly = false
  opened : openReader S.json w.stream.dir S.sessionId (replaySource S.source) = .ok w.live
  saved : writer.endSample = w.saved
  even : (w.file.bytes.length - w.reader.audioOffset) % 2 = 0
  published : writer.isSealed = true → w.endSample = writer.endSample
  mark : writer.isSealed = true → w.sealedEnd = .ok (some writer.endSample)
  closed : w.inputClosed = true → writer.isSealed = true

structure Steady : Prop where
  stored : Stored w
  capturing : ∃ writer, Capturing w writer
  covered : w.journal.committed ≤ w.saved
  sound : Coverage.Sound w.journal
  fallback : w.cloud.isSome = false → S.onDevice.isSome = true
  inbox : ∀ error, StreamEvent.error error ∈ w.inbox → error.provider ≠ "handoff"

variable {w v : World S}

/-- On a closed source the published end is the sealed end, and nothing is committed past it. -/
theorem Steady.closed (h : Steady w) (hclosed : w.inputClosed = true) :
    w.sealedEnd = .ok (some w.endSample) ∧ w.live.availableEnd = .ok w.endSample ∧
      w.journal.committed ≤ w.endSample := by
  obtain ⟨writer, hw⟩ := h.capturing
  have hsealed := hw.closed hclosed
  have hend := hw.published hsealed
  have havailable := h.stored.availableEnd
  rw [hend]
  refine ⟨hw.mark hsealed, ?_, ?_⟩
  · rw [hw.saved]
    exact havailable
  · rw [hw.saved]
    exact h.covered

variable {writer : Writer} {source : ReplaySource} {s t : Replay.Stream} {json : Json} {io : MarkIo}

/-- The same audio, perhaps synced, under the same owner. -/
theorem Capturing.same {file : DurableFile} (h : Capturing w writer) (hreader : v.reader = w.reader)
    (howner : v.stream.owner = some writer) (haudio : v.stream.dir.audio = some file)
    (hbytes : file.bytes = w.file.bytes) (hmark : v.stream.dir.sealedMark = w.stream.dir.sealedMark)
    (hend : v.endSample = w.endSample) (hclosed : v.inputClosed = w.inputClosed) :
    Capturing v writer := by
  have hlive : v.live = { w.live with file := file } := by
    unfold World.live
    rw [haudio, hreader]
    rfl
  have hfile : v.file.bytes = w.file.bytes := by
    unfold World.file
    rw [hlive]
    exact hbytes
  have hsaved : v.saved = w.saved := by
    unfold World.saved
    rw [hfile, hreader]
  refine ⟨howner, h.healthy, h.whole, ?_, h.saved.trans hsaved.symm, ?_, ?_, ?_, ?_⟩
  · rw [hlive]
    refine openReader_extends h.opened haudio ?_
    rw [hbytes]
    exact prefix_refl _
  · rw [hfile, hreader]
    exact h.even
  · rw [hend]
    exact h.published
  · intro hsealed
    unfold World.sealedEnd
    rw [hlive, sealedEnd_congr hmark hbytes]
    exact h.mark hsealed
  · rw [hclosed]
    exact h.closed

theorem Capturing.audio (h : Capturing w writer) : w.stream.dir.audio = some w.file :=
  (openReader_eq_ok h.opened).1

/-! ## What the others do -/

/-- How a source can end without deciding to complete. -/
inductive Excuse : SttError → Prop
  | provider {error : SttError} (foreign : error.provider ≠ "handoff") : Excuse error
  | overflow : Excuse (failure "provider clock overflow")
  | noFallback : Excuse (failure ("cloud transcription incomplete; original input retained; " ++
      "no local fallback was selected"))
  | drained : Excuse drainTimeout

structure Excused (gate : Publication) : Prop where
  fenced : gate.fenced = true
  phase : gate.status.phase = .incomplete
  error : ∃ error, Excuse error ∧ gate.status.error = some error.message

/-- What the worker can count on: its own side is left alone, only the deadline fences, and a
    closed source keeps its end. -/
structure Attended (w v : World S) : Prop where
  foreign : Foreign w v
  gate : v.gate = w.gate ∨ w.gate.fenced = false ∧ Excused v.gate
  closed : w.inputClosed = true → v.inputClosed = true ∧ v.endSample = w.endSample

theorem Attended.refl (w : World S) : Attended w w := ⟨.refl w, .inl rfl, fun h => ⟨h, rfl⟩⟩

theorem Attended.trans {u : World S} (h1 : Attended u v) (h2 : Attended v w) : Attended u w := by
  refine ⟨h1.foreign.trans h2.foreign, ?_, fun h => ?_⟩
  · rcases h1.gate with hsame | ⟨hopen, hexcused⟩
    · rcases h2.gate with hsame' | ⟨hopen, hexcused⟩
      · exact .inl (hsame'.trans hsame)
      · exact .inr ⟨hsame ▸ hopen, hexcused⟩
    · rcases h2.gate with hsame' | ⟨hopen', -⟩
      · exact .inr ⟨hopen, hsame' ▸ hexcused⟩
      · rw [hexcused.fenced] at hopen'
        cases hopen'
  · obtain ⟨hclosed, hend⟩ := h1.closed h
    obtain ⟨hclosed', hend'⟩ := h2.closed hclosed
    exact ⟨hclosed', hend'.trans hend⟩

/-- The gate of a source whose thread fences it with an error that is excused. -/
theorem terminal_excused {error : SttError} (h : w.gate.fenced = true → Excused w.gate)
    (herror : w.gate.fenced = false → Excuse error) : Excused (w.terminal (some error)).gate := by
  unfold terminal
  split
  · exact h ‹_›
  · next hopen =>
    exact ⟨rfl, rfl, error, herror (by simpa using hopen), rfl⟩

theorem append_owner {io : AppendIo} {pcm : List Sample}
    (howner : s.owner = some writer) (h : s.append io pcm = (some (.ok ()), t)) :
    CanAppend writer ∧ t.dir.audio.isSome = true ∧
      t.owner = some { writer with endSample := writer.endSample + pcm.length } := by
  rcases append_cases io s pcm with heq | ⟨writer', file, r, howner', hfile, happended, heq⟩
  · cases heq.symm.trans h
  rw [heq] at h
  obtain rfl : writer = writer' := mem_unique howner howner'
  cases happended with
  | refused | stuck | torn => cases h
  | nothing hcan hpcm =>
    cases h
    rw [hfile, hpcm]
    exact ⟨hcan, rfl, howner⟩
  | written hcan =>
    cases h
    exact ⟨hcan, rfl, rfl⟩

theorem seal_owner
    (howner : s.owner = some writer) (h : s.sealStream json io source = (some (.ok ()), t)) :
    SameAudio s.dir t.dir ∧ t.dir.audio.isSome = true ∧
      t.owner = some { writer with isSealed := true } := by
  rcases sealStream_cases json io s source with heq | ⟨writer', r, howner', hsealed, heq⟩
  · cases heq.symm.trans h
  rw [heq] at h
  obtain rfl : writer = writer' := mem_unique howner howner'
  cases hsealed with
  | stopped => cases h
  | done hsame haudio =>
    cases h
    exact ⟨hsame, haudio, rfl⟩

theorem any_isOk {r : Option (Except IoError Unit)} (h : r.any (·.isOk) = true) :
    r = some (.ok ()) := by
  cases r with
  | none => cases h
  | some r =>
    cases r with
    | error e => cases h
    | ok => rfl

variable {move : Move}

/-- An orderly move keeps the capture healthy, and a closed source its end. -/
theorem orderly_capturing (h : Capturing w writer) (hstored : Stored v) (hext : Extends w v)
    (horder : w.orderly move = true) (hmove : w.move move = some v) :
    (∃ writer, Capturing v writer) ∧
      (w.inputClosed = true → v.inputClosed = true ∧ v.endSample = w.endSample) := by
  have hlive {file : DurableFile} (haudio : v.stream.dir.audio = some file) :
      v.live = { w.live with file } := by
    unfold World.live
    rw [haudio, hext.reader]
    rfl
  have hopened (haudio : v.stream.dir.audio.isSome = true) :
      openReader S.json v.stream.dir S.sessionId (replaySource S.source) = .ok v.live := by
    obtain ⟨file, haudio⟩ := isSome_iff_exists.mp haudio
    have hbytes := hext.bytes
    unfold World.file at hbytes
    rw [hlive haudio] at hbytes ⊢
    exact openReader_extends h.opened haudio hbytes
  have hsame (hstream : v.stream = w.stream) (hend : v.endSample = w.endSample)
      (hclosed : v.inputClosed = w.inputClosed) : (∃ writer, Capturing v writer) ∧
        (w.inputClosed = true → v.inputClosed = true ∧ v.endSample = w.endSample) := by
    refine ⟨⟨writer, h.same hext.reader ?_ ?_ rfl ?_ hend hclosed⟩, fun hw =>
      ⟨hclosed.trans hw, hend⟩⟩
    · rw [hstream]
      exact h.owner
    · rw [hstream]
      exact h.audio
    · rw [hstream]
  cases move with
  | append io pcm =>
    obtain rfl := move_append hmove
    have hok : w.stream.append io pcm = (some (.ok ()), (w.stream.append io pcm).2) :=
      Prod.ext (any_isOk horder) rfl
    obtain ⟨hcan, haudio, howner⟩ := append_owner h.owner hok
    obtain ⟨hsaved, heven⟩ := hstored.owner _ howner ⟨h.healthy, hcan.unsealed, h.whole⟩
    have hopen : writer.isSealed ≠ true := by simp [hcan.unsealed]
    exact ⟨⟨_, howner, h.healthy, h.whole, hopened haudio, hsaved, heven,
      fun hsealed => (hopen hsealed).elim, fun hsealed => (hopen hsealed).elim, h.closed⟩,
      fun hclosed => ⟨hclosed, rfl⟩⟩
  | sync synced =>
    obtain ⟨owner, howner, rfl⟩ := map_eq_some_iff.mp hmove
    obtain rfl : writer = owner := mem_unique h.owner howner
    obtain rfl : synced = true := horder
    refine ⟨⟨writer, ?_⟩, fun hclosed => ⟨hclosed, rfl⟩⟩
    have hsync : (w.stream.syncAs writer true).2 =
        { w.stream with dir := { w.stream.dir with audio := some w.file.sync } } := by
      unfold Stream.syncAs
      rw [h.healthy, h.audio]
      rfl
    have haudio : (w.stream.syncAs writer true).2.dir.audio = some w.file.sync := by rw [hsync]
    exact h.same rfl ((congrArg Replay.Stream.owner hsync).trans h.owner) haudio rfl
      (congrArg (fun s => s.dir.sealedMark) hsync) rfl rfl
  | storeEnd =>
    obtain ⟨owner, howner, rfl⟩ := map_eq_some_iff.mp hmove
    obtain rfl : writer = owner := mem_unique h.owner howner
    refine ⟨⟨writer, { h with published := fun _ => rfl }⟩, fun hclosed => ⟨hclosed, ?_⟩⟩
    exact (h.published (h.closed hclosed)).symm
  | sealInput io =>
    cases hmove
    change (w.stream.owner.any (·.endSample == w.endSample) && _ && _) = true at horder
    rw [Bool.and_eq_true, Bool.and_eq_true, h.owner] at horder
    obtain ⟨⟨hend, hok⟩, hread⟩ := horder
    have hok : w.stream.sealStream S.json io (replaySource S.source) =
        (some (.ok ()), (w.stream.sealStream S.json io (replaySource S.source)).2) :=
      Prod.ext (any_isOk hok) rfl
    obtain ⟨hkept, haudio, howner⟩ := seal_owner h.owner hok
    have hbytes : (World.file (S := S)
        { w with stream := (w.stream.sealStream S.json io (replaySource S.source)).2 }).bytes =
          w.file.bytes :=
      hkept.getD_bytes w.reader.file
    have hsaved : World.saved (S := S)
        { w with stream := (w.stream.sealStream S.json io (replaySource S.source)).2 } =
          w.saved := by
      unfold World.saved
      rw [hbytes]
    refine ⟨⟨_, howner, h.healthy, h.whole, hopened haudio, h.saved.trans hsaved.symm, ?_,
      fun _ => ?_, fun _ => ?_, fun _ => rfl⟩, fun hclosed => ⟨hclosed, rfl⟩⟩
    · rw [hbytes]
      exact h.even
    · exact (eq_of_beq hend).symm
    · split at hread
      · next last hlast =>
        have havailable := sealedEnd_available hlast
        rw [hstored.availableEnd, hsaved, ← h.saved] at havailable
        rw [hlast, ← Except.ok.inj havailable]
      · cases hread
  | closeInput =>
    cases hmove
    change w.stream.owner.any (·.isSealed) = true at horder
    rw [h.owner] at horder
    exact ⟨⟨writer, { h with closed := fun _ => horder }⟩, fun _ => ⟨rfl, rfl⟩⟩
  | requestStop | clock elapsedMs =>
    cases hmove
    exact hsame rfl rfl rfl
  | terminal error =>
    cases hmove
    have hkept : (w.terminal (some error)).endSample = w.endSample ∧
        (w.terminal (some error)).inputClosed = w.inputClosed := by
      unfold World.terminal
      split <;> exact ⟨rfl, rfl⟩
    exact hsame (terminal_private w (some error)).1 hkept.1 hkept.2
  | provider event | disconnect | room free =>
    obtain ⟨cloud, hcloud, rfl⟩ := map_eq_some_iff.mp hmove
    exact hsame rfl rfl rfl

/-- Only the deadline of `finish` touches the gate. -/
theorem orderly_gate (horder : w.orderly move = true) (hmove : w.move move = some v) :
    v.gate = w.gate ∨ w.gate.fenced = false ∧ Excused v.gate := by
  obtain ⟨-, -, ⟨error, rfl, rfl⟩ | ⟨hgate, -⟩⟩ := move_effect hmove
  · cases hfenced : w.gate.fenced with
    | true =>
      unfold terminal
      rw [hfenced]
      exact .inl rfl
    | false =>
      have herror : error = drainTimeout := of_decide_eq_true horder
      rw [herror]
      refine .inr ⟨rfl, terminal_excused (fun h => ?_) fun _ => .drained⟩
      rw [hfenced] at h
      cases h
  · exact .inl hgate

theorem attend_steady (hs : Steady w) (h : w.attend move = some v) : Steady v ∧ Attended w v := by
  unfold attend at h
  split at h
  · next horder =>
    obtain ⟨writer, hw⟩ := hs.capturing
    obtain ⟨hstored, hext⟩ := move_stored hs.stored h
    obtain ⟨hforeign, hinbox, -⟩ := move_effect h
    obtain ⟨hcapturing, hclosed⟩ := orderly_capturing hw hstored hext horder h
    refine ⟨⟨hstored, hcapturing, ?_, ?_, ?_, ?_⟩, hforeign, orderly_gate horder h, hclosed⟩
    · rw [hforeign.journal]
      exact le_trans hs.covered hext.saved_le
    · rw [hforeign.journal]
      exact hs.sound
    · rw [hforeign.cloud]
      exact hs.fallback
    · intro error hmem
      rcases hinbox with hsub | ⟨event, rfl, hsub⟩
      · exact hs.inbox error (hsub hmem)
      · rcases mem_append.mp (hsub hmem) with hold | hnew
        · exact hs.inbox error hold
        · obtain rfl := mem_singleton.mp hnew
          exact bne_iff_ne.mp horder
  · cases h

/-! ## What the worker does -/

/-- Where the worker is: whoever fenced the source had an excuse; if it has a `goal`, the input
    is closed with its end there; what it has `reached` is committed. -/
structure Position (goal reached : Option ℕ) (w : World S) : Prop where
  fence : w.gate.fenced = true → Excused w.gate
  closed : ∀ last, goal = some last → w.inputClosed = true ∧ w.endSample = last
  committed : ∀ n, reached = some n → w.journal.committed = n

theorem Position.start (h : w.gate.fenced = true → Excused w.gate) : Position none none w :=
  ⟨h, fun _ h => (nomatch h), fun _ h => nomatch h⟩

theorem Position.forget {goal reached : Option ℕ} (h : Position goal reached w) :
    Position none none w := .start h.fence

theorem Position.weaken {goal reached : Option ℕ} (h : Position goal reached w) :
    Position goal none w := ⟨h.fence, h.closed, fun _ h => nomatch h⟩

/-- The completion of a source at `last`: it is the sealed end, all of it is committed, and the
    mark is set. -/
structure Completes (last : ℕ) (w : World S) : Prop where
  sealedEnd : w.sealedEnd = .ok (some last)
  committed : w.journal.committed = last
  marked : (w.markComplete last).1 = .ok ()

/-- An error the thread ends with is excused, unless it only finds the source fenced. -/
structure Failing (error : SttError) (w : World S) : Prop where
  fence : w.gate.fenced = true → Excused w.gate
  excuse : w.gate.fenced = false → Excuse error

def finishing (S : Setup) : Contract Label (World S) where
  inv := Steady
  rely := Attended
  assumed name w := callSucceeds name w = true ∧ endUnmoved name w = true
  promised name w _ := ∀ last, name = .markComplete last → Completes last w
  rely_refl := .refl
  rely_trans := .trans

/-- The step that sets the completion mark. -/
def Label.marks : Label → Bool
  | .markComplete _ => true
  | _ => false

namespace Finishing

variable {goal reached : Option ℕ}

theorem position_stable (goal reached : Option ℕ) :
    (finishing S).Stable (Position goal reached) := by
  intro w v hrely h
  refine ⟨fun hfenced => ?_, fun last hgoal => ?_, fun n hn => ?_⟩
  · rcases hrely.gate with hsame | ⟨-, hexcused⟩
    · rw [hsame] at hfenced ⊢
      exact h.fence hfenced
    · exact hexcused
  · obtain ⟨hclosed, hend⟩ := h.closed last hgoal
    obtain ⟨hclosed', hend'⟩ := hrely.closed hclosed
    exact ⟨hclosed', hend'.trans hend⟩
  · rw [hrely.foreign.journal]
    exact h.committed n hn

theorem failing_stable (error : SttError) : (finishing S).Stable (Failing error) := by
  intro w v hrely h
  rcases hrely.gate with hsame | ⟨-, hexcused⟩
  · refine ⟨?_, ?_⟩
    · rw [hsame]
      exact h.fence
    · rw [hsame]
      exact h.excuse
  · refine ⟨fun _ => hexcused, fun hopen => ?_⟩
    rw [hexcused.fenced] at hopen
    cases hopen

/-- A step that leaves the stream, the journal and the flags alone. It may take a source with a
    local engine off the cloud. -/
structure Apart (w v : World S) : Prop where
  stream : v.stream = w.stream
  reader : v.reader = w.reader
  endSample : v.endSample = w.endSample
  inputClosed : v.inputClosed = w.inputClosed
  journal : v.journal = w.journal
  cloud : v.cloud.isSome = false → w.cloud.isSome = false ∨ S.onDevice.isSome = true
  inbox : v.inbox ⊆ w.inbox

theorem Apart.steady (h : Apart w v) (hs : Steady w) : Steady v := by
  obtain ⟨writer, hw⟩ := hs.capturing
  obtain ⟨hstored, hext⟩ := hs.stored.of_stream h.stream h.reader
  refine ⟨hstored, ⟨writer, hw.same h.reader ?_ ?_ rfl ?_ h.endSample h.inputClosed⟩, ?_, ?_, ?_,
    ?_⟩
  · rw [h.stream]
    exact hw.owner
  · rw [h.stream]
    exact hw.audio
  · rw [h.stream]
  · rw [h.journal]
    exact le_trans hs.covered hext.saved_le
  · rw [h.journal]
    exact hs.sound
  · intro hcloud
    rcases h.cloud hcloud with hlocal | hlocal
    · exact hs.fallback hlocal
    · exact hlocal
  · exact fun error hmem => hs.inbox error (h.inbox hmem)

/-- It leaves the fence alone too, and all of the gate once it is fenced. -/
structure Beside (w v : World S) : Prop extends Apart w v where
  fenced : v.gate.fenced = w.gate.fenced
  gate : w.gate.fenced = true → v.gate = w.gate

theorem Beside.of_gate (h : Apart w v) (hgate : v.gate = w.gate) : Beside w v :=
  ⟨h, by rw [hgate], fun _ => hgate⟩

theorem Beside.refl (w : World S) : Beside w w :=
  .of_gate ⟨rfl, rfl, rfl, rfl, rfl, .inl, Subset.refl _⟩ rfl

theorem Beside.of_private (h : Private w v) : Beside w v :=
  .of_gate { h with cloud := fun hv => .inl (h.cloud.symm.trans hv) } h.gate

theorem Beside.position (h : Beside w v) (hp : Position goal reached w) :
    Position goal reached v := by
  refine ⟨fun hfenced => ?_, fun last hgoal => ?_, fun n hn => ?_⟩
  · rw [h.fenced] at hfenced
    rw [h.gate hfenced]
    exact hp.fence hfenced
  · rw [h.inputClosed, h.endSample]
    exact hp.closed last hgoal
  · rw [h.journal]
    exact hp.committed n hn

variable {E : SttError → World S → Prop} {name : Label}

/-- The program leaves the worker where it is. -/
abbrev Rests (S : Setup) (goal reached : Option ℕ) {α : Type} (p : Worker S α)
    (E : SttError → World S → Prop) : Prop :=
  Triple (finishing S) (Position goal reached) p (fun _ => Position goal reached) E

theorem promised_other (hname : name.marks = false) (w v : World S) :
    (finishing S).promised name w v := by
  rintro last rfl
  cases hname

theorem quiet_marks (h : name.quiet = true) : name.marks = false := by
  cases name with
  | markComplete last => cases h
  | _ => rfl

theorem beside_update (hname : name.quiet = true) {f : World S → World S}
    (h : ∀ w, Beside w (f w)) :
    Rests S goal reached (update name f) E :=
  update (position_stable goal reached) fun w hs hp _ =>
    ⟨(h w).steady hs, promised_other (quiet_marks hname) _ _, (h w).position hp⟩

theorem beside_atomic {α : Type} {f : World S → Except SttError α × World S}
    (h : ∀ w, Beside w (f w).2) (hok : ∀ w, ∃ a, (f w).1 = .ok a) :
    Rests S goal reached (atomic .own f) E := by
  refine atomic (position_stable goal reached) fun w hs hp _ =>
    ⟨(h w).steady hs, promised_other rfl _ _, ?_⟩
  obtain ⟨a, ha⟩ := hok w
  rw [ha]
  exact (h w).position hp

/-- A read, and what is known of what was read. -/
theorem read_position {α : Type} (hname : name.quiet = true) {f : World S → α}
    {Q : α → World S → Prop} (hQ : ∀ w, Steady w → Position goal reached w → Q (f w) w) :
    Triple (finishing S) (Position goal reached) (read name f : Worker S α) Q E :=
  read (position_stable goal reached) fun w hs hp _ =>
    ⟨promised_other (quiet_marks hname) _ _, hQ w hs hp⟩

theorem unlessFenced_triple (message : String) :
    Rests S goal reached (unlessFenced message) Failing := by
  refine bind (Q := fun fenced w => Position goal reached w ∧ w.gate.fenced = fenced)
    (read_position rfl fun w _ hp => ⟨hp, rfl⟩) fun fenced => ?_
  cases fenced with
  | true =>
    refine fail fun w _ h => ⟨h.1.fence, fun hopen => ?_⟩
    rw [h.2] at hopen
    cases hopen
  | false => exact pure fun _ _ h => h.1

theorem emit_triple (event : StreamEvent) : Rests S goal reached (emit event) E := by
  refine beside_update rfl fun w => ?_
  unfold World.emit
  split
  · exact .refl w
  · exact { Beside.refl w with }

/-- A change of the status of a source that is not fenced. -/
theorem status_beside {status : Status} {events : List Sent} (h : v = if w.gate.fenced then w
      else { w with gate := { w.gate with status }, events }) : Beside w v := by
  subst h
  split
  · exact .refl w
  · next hopen =>
    exact ⟨⟨rfl, rfl, rfl, rfl, rfl, .inl, Subset.refl _⟩, rfl, fun h => (hopen h).elim⟩

theorem commitStatus_triple : Rests S goal reached (update .gate commitStatus) E :=
  beside_update rfl fun _ => status_beside rfl

theorem readPcm_triple (cursor last : ℕ) : Rests S goal reached (readPcm cursor last) E := by
  exact atomic (position_stable goal reached) fun w hs hp hcall =>
    ⟨hs, promised_other rfl _ _, ends_of_isOk hcall.1 fun _ _ => hp⟩

/-! ## The journal -/

theorem onJournal_steady {α : Type}
    {call : Coverage.Io → Journal.Left → Except IoError α × Journal.Left} (hs : Steady w)
    (htouched : ∀ io left, Touched left.audio (call io left).2.audio)
    (hcovered : (w.onJournal call).2.journal.committed ≤ w.saved)
    (hsound : Coverage.Sound (w.onJournal call).2.journal) : Steady (w.onJournal call).2 := by
  obtain ⟨writer, hw⟩ := hs.capturing
  have hbytes := onJournal_bytes (w := w) htouched
  obtain ⟨hstored, hext⟩ := hs.stored.same (v := (w.onJournal call).2) rfl hbytes
    fun _ howner _ => howner
  refine ⟨hstored, ⟨writer, hw.same rfl hw.owner rfl hbytes rfl rfl rfl⟩, ?_, hsound, hs.fallback,
    hs.inbox⟩
  exact le_trans hcovered hext.saved_le

/-- A commit or skip that returns `Ok` has committed. -/
theorem record_committed (hs : Steady w) (throughSample : ℕ) (segments : List TranscriptSegment)
    (gap : Option String) :
    let r := w.journalRecord throughSample segments gap
    r.1.isOk = true → Steady r.2 ∧ r.2.journal.committed = throughSample := by
  intro r hok
  rcases record_wrote w throughSample segments gap with ⟨hne, -⟩ | ⟨hvalid, validBytes, hjournal⟩
  · cases hresult : r.1 with
    | error e =>
      rw [hresult] at hok
      cases hok
    | ok outcome =>
      obtain rfl := Journal.record_new hs.sound (mapError_eq_ok hresult)
      exact (hne hresult).elim
  · have hcommitted : r.2.journal.committed = throughSample := congrArg Journal.committed hjournal
    refine ⟨onJournal_steady hs (fun io left => record_touched _ io left _ _ _ _ _) ?_
      (record_sound hs.sound throughSample segments gap), hcommitted⟩
    refine le_trans (le_of_eq hcommitted) ?_
    exact ((hs.stored.probe throughSample).mp hvalid.2).2

theorem commit_triple (throughSample : ℕ) (segments : List TranscriptSegment) :
    Triple (finishing S) (Position goal reached) (commit throughSample segments)
      (fun _ => Position goal (some throughSample)) Failing := by
  refine bind (unlessFenced_triple _) fun _ => ?_
  refine bind (Q := fun _ => Position goal (some throughSample)) ?_ fun outcome => ?_
  · refine atomic (position_stable goal reached) fun w hs hp hcall => ?_
    obtain ⟨hs', hcommitted⟩ := record_committed hs throughSample segments none hcall.1
    refine ⟨hs', promised_other rfl _ _, ends_of_isOk hcall.1 fun _ _ => ?_⟩
    refine ⟨hp.fence, hp.closed, fun n hn => ?_⟩
    cases hn
    exact hcommitted
  · refine bind commitStatus_triple fun _ => ?_
    cases outcome with
    | new => exact forEach fun segment _ => emit_triple (.final segment)
    | alreadyCommitted => exact pure fun _ _ h => h

/-- What the worker reads of the committed sample stays so. -/
theorem committed_triple : Triple (finishing S) (Position goal reached)
      (read .own (·.journal.committed) : Worker S ℕ)
      (fun committed => Position goal (some committed)) E :=
  read_position rfl fun w _ hp => ⟨hp.fence, hp.closed, fun n hn => by cases hn; rfl⟩

/-! ## Inference -/

theorem transcribe_triple (chunk : Chunk) :
    Triple (finishing S) (Position goal reached) (transcribe chunk)
      (fun answer w => (∃ recognized, answer = .ok recognized) ∧ Position goal reached w) E := by
  refine atomic (position_stable goal reached) fun w hs hp hcall => ?_
  have h : Beside w { w with inferences := w.inferences + 1 } :=
    { Beside.refl w with }
  refine ⟨h.steady hs, promised_other rfl _ _, ?_, h.position hp⟩
  have hok : (S.recognize w.inferences chunk.samples).isOk = true := hcall.1
  cases hanswer : S.recognize w.inferences chunk.samples with
  | error e =>
    rw [hanswer] at hok
    cases hok
  | ok recognized => exact ⟨recognized, rfl⟩

theorem infer_triple (hlocal : S.onDevice.isSome = true) (chunk : Chunk) :
    Rests S goal none (infer chunk) Failing := by
  refine bind (unlessFenced_triple _) fun _ =>
    bind (transcribe_triple chunk) fun answer => ?_
  refine given fun ⟨recognized, hanswer⟩ => ?_
  subst hanswer
  refine bind (unlessFenced_triple _) fun _ => ?_
  split
  · next hnone =>
    rw [hnone] at hlocal
    cases hlocal
  · next runtime _ =>
    have hsegments : Rests S goal none (atomic .own (segments runtime chunk recognized)) Failing :=
      beside_atomic (fun w => { Beside.refl w with })
        fun w => ⟨_, rfl⟩
    refine bind hsegments fun segments => ?_
    refine bind (Q := fun _ => Position goal none) (read_position rfl fun _ _ hp => hp)
      fun base => ?_
    exact (commit_triple _ segments).post fun _ _ _ h => h.weaken

theorem commitSafe_triple : Rests S goal none commitSafe Failing := by
  refine bind (Q := fun _ => Position goal none) (read_position rfl fun _ _ hp => hp)
    fun safe => bind committed_triple fun committed => ?_
  split
  · exact (commit_triple safe []).post fun _ _ _ h => h.weaken
  · exact pure fun _ _ h => h.weaken

theorem localAudio_triple (hlocal : S.onDevice.isSome = true) (last : ℕ) :
    Rests S none none (localAudio last) Failing := by
  refine bind (Q := fun _ => Position none none) (read_position rfl fun _ _ hp => hp)
    fun cursor => ?_
  split
  · refine bind (readPcm_triple cursor last) fun pcm => ?_
    have hpush : Rests S none none (atomic .own (pushLocal pcm)) Failing :=
      beside_atomic (fun w => { Beside.refl w with })
        fun w => ⟨_, rfl⟩
    refine bind hpush fun chunks => ?_
    exact bind (forEach fun chunk _ => infer_triple hlocal chunk) fun _ =>
      commitSafe_triple
  · exact pure fun _ _ h => h

/-! ## The end -/

/-- The mark is set at the end of a closed source. -/
theorem markComplete_eq {dir : Dir} {sessionId : String}
    {r : Reader} {last : ℕ} {sealedAt : Option ℕ}
    (hopen : openReader json dir sessionId source = .ok r)
    (hsealed : r.sealedEnd json dir = .ok sealedAt) (haligned : r.aligned = .ok true)
    (hlast : r.availableEnd = .ok last) (hsync : io.audioSync = true)
    (hmarker : io.marker = .done) :
    dir.markComplete json io sessionId source last = (.ok (), { dir with
      audio := some r.file.sync
      completion := some (json.boundary.toVec
        ⟨1, r.header.sessionId, r.header.source, r.firstSample, last⟩) }) := by
  have hready : (do
      let r ← openReader json dir sessionId source
      let _ ← r.sealedEnd json dir
      return r) = .ok r :=
    bind_eq_ok.mpr ⟨r, hopen, bind_eq_ok.mpr ⟨sealedAt, hsealed, rfl⟩⟩
  have hwhole : (do
      let whole ← r.aligned
      refuseIf (!whole) (invalid "completion must cover the entire aligned replay stream")
      let last' ← r.availableEnd
      refuseIf (last != last')
        (invalid "completion must cover the entire aligned replay stream")) = .ok () :=
    bind_eq_ok.mpr ⟨true, haligned, bind_eq_ok.mpr ⟨(), rfl, bind_eq_ok.mpr ⟨last, hlast, by
      simp [refuseIf]⟩⟩⟩
  have hfirst : ¬(last < r.firstSample ∨ last > last) := by
    have := (Reader.availableEnd_eq_ok.mp hlast).2.1
    omega
  have hthrough : r.syncThrough last io.audioSync = (.ok (), { r with file := r.file.sync }) := by
    unfold Reader.syncThrough
    rw [hlast, hsync]
    dsimp only
    rw [if_neg hfirst, if_pos rfl]
  have hboundary : r.boundary last io.audioSync = (.ok
      ⟨1, r.header.sessionId, r.header.source, r.firstSample, last⟩,
        { r with file := r.file.sync }) := by
    unfold Reader.boundary
    rw [hwhole]
    rw [hthrough]
    rfl
  unfold Dir.markComplete
  rw [hready]
  dsimp only
  rw [hboundary, hmarker]
  rfl

/-- The disk takes the completion mark. -/
structure Marking (S : Setup) : Prop where
  audioSync : S.markIo.audioSync = true
  marker : S.markIo.marker = .done

theorem markComplete_steady (hmarking : Marking S) (hs : Steady w) (hclosed : w.inputClosed = true)
    : (w.markComplete w.endSample).1 = .ok () ∧ Steady (w.markComplete w.endSample).2 := by
  obtain ⟨writer, hw⟩ := hs.capturing
  obtain ⟨hsealed, havailable, -⟩ := hs.closed hclosed
  have haligned : w.live.aligned = .ok true := by
    refine bind_eq_ok.mpr ⟨w.file.bytes.length - w.reader.audioOffset, ?_, ?_⟩
    · exact okOr_eq_ok.mpr (checkedSub_eq_some.mpr ⟨hs.stored.inside, rfl⟩)
    · show Except.ok (_ == 0) = _
      rw [hw.even]
      rfl
  have heq := markComplete_eq hw.opened hsealed haligned havailable hmarking.audioSync
    hmarking.marker
  unfold markComplete
  rw [heq]
  refine ⟨rfl, ?_⟩
  obtain ⟨hstored, hext⟩ := hs.stored.same (w := w)
    (v := { w with stream := { w.stream with dir := { w.stream.dir with
      audio := some w.live.file.sync
      completion := some (S.json.boundary.toVec ⟨1, w.live.header.sessionId, w.live.header.source,
        w.live.firstSample, w.endSample⟩) } } }) rfl rfl fun _ howner _ => howner
  exact ⟨hstored, ⟨writer, hw.same rfl hw.owner rfl rfl rfl rfl rfl⟩,
    le_trans hs.covered hext.saved_le, hs.sound, hs.fallback, hs.inbox⟩

theorem commitRest_triple (last : ℕ) :
    Triple (finishing S) (Position (some last) none) (commitRest last)
      (fun _ => Position (some last) (some last)) Failing := by
  refine bind committed_triple fun committed => ?_
  split
  · exact commit_triple last []
  · refine pure fun w hs hp => ⟨hp.fence, hp.closed, fun n hn => ?_⟩
    cases hn
    obtain ⟨hclosed, hend⟩ := hp.closed last rfl
    have hcovered := (hs.closed hclosed).2.2
    have hcommitted := hp.committed committed rfl
    omega

/-! ## The loop -/

/-- The input was found closed, and if the worker is at `last`, that is the end. -/
def Ending (last : ℕ) (w : World S) : Prop :=
  Position none none w ∧
    (w.journal.committed = last ∨ w.localCursor = last → Position (some last) none w)

theorem ending_stable (last : ℕ) : (finishing S).Stable (Ending last) := by
  intro w v hrely ⟨hnone, hlast⟩
  refine ⟨position_stable _ _ w v hrely hnone, fun h => position_stable _ _ w v hrely (hlast ?_)⟩
  rwa [hrely.foreign.journal, hrely.foreign.localCursor] at h

theorem closedTest_triple (last : ℕ) : Triple (finishing S) (Position none none)
      (read (.closedTest last) (·.inputClosed) : Worker S Bool)
      (fun closed w => if closed then Ending last w else Position none none w) Failing := by
  refine read (position_stable none none) fun w hs hp hunmoved =>
    ⟨promised_other rfl _ _, ?_⟩
  cases hclosed : w.inputClosed with
  | false => exact hp
  | true =>
    refine ⟨hp, fun hdone => ⟨hp.fence, fun n hn => ?_, fun _ h => (nomatch h)⟩⟩
    cases hn
    exact ⟨hclosed, of_decide_eq_true hunmoved.2 hclosed hdone⟩

theorem demoteLocal_triple (reason : SwitchReason) :
    Rests S none none (demoteLocal reason) Failing := by
  unfold demoteLocal
  split
  · exact fail fun w _ hp => ⟨hp.fence, fun _ => .noFallback⟩
  rename_i runtime hruntime
  have hlocal : S.onDevice.isSome = true := by rw [hruntime]; rfl
  refine bind (beside_update rfl fun w => .of_gate
    ⟨rfl, rfl, rfl, rfl, rfl, fun _ => .inr hlocal, fun _ h => (nomatch h)⟩ rfl) fun _ => ?_
  refine bind (Q := fun _ => Position none none) ?_ fun epoch => ?_
  · refine atomic (position_stable none none) fun w hs hp hcall => ?_
    have hacts := Journal.switch_acts S.codec (S.journalIo w.journalCalls)
      ⟨w.journal, w.journalFile, w.live⟩ runtime.engine reason
    have hcommitted : (w.journalSwitch runtime.engine reason).2.journal.committed ≤ w.saved := by
      refine le_trans (le_of_eq ?_) hs.covered
      rcases switch_wrote w runtime.engine reason with ⟨-, _, _, hj⟩ | ⟨_, _, -, -, hj⟩
      · rw [hj]
      · rw [hj]
        rfl
    refine ⟨onJournal_steady hs (fun io left =>
      (Journal.switch_acts S.codec io left runtime.engine reason).touched) hcommitted
      (hacts.sound hs.sound), promised_other rfl _ _,
      ends_of_isOk hcall.1 fun _ _ => .start hp.fence⟩
  · refine bind (beside_update rfl fun w => { Beside.refl w with }) fun _ => ?_
    exact bind (beside_update rfl fun w => status_beside rfl) fun _ =>
      unlessFenced_triple _

theorem cloudFinal_triple (segment : TranscriptSegment) :
    Rests S none none (cloudFinal segment) Failing := by
  unfold cloudFinal
  split
  · exact fail fun w _ hp => ⟨hp.fence, fun _ => .overflow⟩
  rename_i through _
  refine bind committed_triple fun committed => ?_
  split
  · have hconfirmed : Rests S none none (update .own confirmedFinal) Failing :=
      beside_update rfl fun w => { Beside.refl w with }
    exact bind (commit_triple through [segment]) fun _ =>
      hconfirmed.pre fun _ _ h => h.weaken
  · exact pure fun _ _ h => h.weaken

/-- The source has reached the end it decided on. -/
def Reached (w : World S) : Prop := ∃ last, Position (some last) (some last) w

/-- The source has ended: completed at the end of its closed input, or with an excuse. -/
def Stopped (w : World S) : Prop :=
  Excused w.gate ∨ w.gate.fenced = true ∧ w.gate.status.phase = .complete ∧
    w.inputClosed = true ∧ w.journal.committed = w.endSample

theorem stopped_stable : (finishing S).Stable Stopped := by
  intro w v hrely h
  have hfenced : w.gate.fenced = true := by
    rcases h with h | h
    · exact h.fenced
    · exact h.1
  have hgate : v.gate = w.gate := by
    rcases hrely.gate with hsame | ⟨hopen, -⟩
    · exact hsame
    · rw [hfenced] at hopen
      cases hopen
  rcases h with h | ⟨-, hphase, hclosed, hcommitted⟩
  · exact .inl (hgate ▸ h)
  · obtain ⟨hclosed', hend⟩ := hrely.closed hclosed
    refine .inr ⟨hgate ▸ hfenced, hgate ▸ hphase, hclosed', ?_⟩
    rw [hrely.foreign.journal, hend]
    exact hcommitted

theorem terminal_apart (w : World S) (error : Option SttError) : Apart w (w.terminal error) := by
  unfold terminal
  split <;> exact ⟨rfl, rfl, rfl, rfl, rfl, .inl, Subset.refl _⟩

theorem ended_triple (hfull : S.prefixEnd = none) :
    Triple (finishing S) Reached (update .gate (terminal none) : Worker S Unit)
      (fun _ => Stopped) (fun _ _ => False) := by
  refine update (fun w v hrely ⟨last, h⟩ => ⟨last, position_stable _ _ w v hrely h⟩)
    fun w hs ⟨last, hp⟩ _ => ⟨(terminal_apart w none).steady hs, promised_other rfl _ _, ?_⟩
  obtain ⟨hclosed, hend⟩ := hp.closed last rfl
  cases hfenced : w.gate.fenced with
  | true =>
    unfold terminal
    rw [hfenced]
    exact .inl (hp.fence hfenced)
  | false =>
    unfold terminal
    rw [hfenced, hfull]
    exact .inr ⟨rfl, rfl, hclosed, (hp.committed last rfl).trans hend.symm⟩

theorem failed_triple (error : SttError) : Triple (finishing S) (Failing error)
      (update .gate (terminal (some error)) : Worker S Unit)
      (fun _ => Stopped) (fun _ _ => False) :=
  update (failing_stable error) fun w hs h _ =>
    ⟨(terminal_apart w _).steady hs, promised_other rfl _ _,
      .inl (terminal_excused h.fence h.excuse)⟩

def GoesOn (running : Bool) (w : World S) : Prop :=
  if running then Position none none w else Stopped w

section
variable (hfull : S.prefixEnd = none) (hmarking : Marking S)
include hfull hmarking

theorem complete_triple (last : ℕ) :
    Rests S (some last) (some last) (complete last) Failing := by
  refine bind (unlessFenced_triple _) fun _ => ?_
  refine bind (Q := fun closed w => closed = true ∧ Position (some last) (some last) w)
    (read_position rfl fun w _ hp => ⟨(hp.closed last rfl).1, hp⟩) fun closed => ?_
  refine given fun hclosed => ?_
  refine bind
    (Q := fun committed w => committed = last ∧ Position (some last) (some last) w)
    (read_position rfl fun w _ hp => ⟨hp.committed last rfl, hp⟩) fun committed => ?_
  refine given fun hcommitted => ?_
  subst hclosed hcommitted
  rw [if_neg (by simp), if_neg (by rw [hfull]; exact fun h => nomatch h)]
  refine atomic (position_stable _ _) fun w hs hp _ => ?_
  obtain ⟨hclosed, hend⟩ := hp.closed committed rfl
  obtain ⟨hmarked, hs'⟩ := markComplete_steady hmarking hs hclosed
  rw [hend] at hmarked hs'
  refine ⟨hs', ?_, ?_⟩
  · rintro last ⟨⟩
    refine ⟨?_, hp.committed _ rfl, hmarked⟩
    rw [← hend]
    exact (hs.closed hclosed).1
  · rw [hmarked]
    exact ⟨hp.fence, hp.closed, hp.committed⟩

theorem localTail_triple (hlocal : S.onDevice.isSome = true) (last : ℕ) :
    Triple (finishing S) (Position (some last) none) (localTail last)
      (fun _ => Position (some last) (some last)) Failing := by
  have hflush : Rests S (some last) none (atomic .own flushLocal) Failing :=
    beside_atomic (fun w => { Beside.refl w with })
      fun w => ⟨_, rfl⟩
  exact bind hflush fun chunk =>
    bind (forEach fun chunk _ => infer_triple hlocal chunk) fun _ =>
    bind (commitRest_triple last) fun _ => complete_triple hfull hmarking last

theorem cloudStop_triple (last : ℕ) :
    Triple (finishing S) (Ending last) (cloudStop last)
      (Control.leaves (Position none none) Reached) Failing := by
  refine bind (Q := fun committed w => Position none (some committed) w ∧
    (committed = last → Position (some last) (some last) w)) ?_ fun committed => ?_
  · exact read (ending_stable last) fun w _ hp _ => ⟨promised_other rfl _ _,
      ⟨hp.1.fence, hp.1.closed, fun _ => some.inj⟩,
      fun h => ⟨hp.1.fence, (hp.2 (.inl h)).closed, fun _ hn => h.trans (some.inj hn)⟩⟩
  split
  · next hcommitted =>
    exact bind ((complete_triple hfull hmarking last).pre fun _ _ h => h.2 hcommitted) fun _ =>
      pure fun _ _ h => ⟨last, h⟩
  · have hsettling : Rests S none (some committed) (atomic .own settling) Failing :=
      beside_atomic (fun w => { Beside.refl w with })
        fun w => ⟨_, rfl⟩
    refine bind (hsettling.pre fun _ _ h => h.1) fun settled => ?_
    split
    · refine bind ((demoteLocal_triple .finishingTail).pre fun _ _ h => h.forget) fun _ =>
        pure fun _ _ h => h
    · exact pure fun _ _ h => h.forget

theorem localPass_triple (hlocal : S.onDevice.isSome = true) (last : ℕ) :
    Triple (finishing S) (Position none none) (localPass last)
      (Control.leaves (Position none none) Reached) Failing := by
  refine bind (localAudio_triple hlocal last) fun _ =>
    bind (closedTest_triple last) fun closed => ?_
  cases closed with
  | false => exact pure fun _ _ h => h
  | true =>
    refine bind (Q := fun cursor w => Position none none w ∧
      (cursor = last → Position (some last) none w)) ?_ fun cursor => ?_
    · exact read (ending_stable last) fun w _ hp _ =>
        ⟨promised_other rfl _ _, hp.1, fun h => hp.2 (.inr h)⟩
    split
    · next hcursor =>
      exact bind ((localTail_triple hfull hmarking hlocal last).pre fun _ _ h => h.2 hcursor)
        fun _ => pure fun _ _ h => ⟨last, h⟩
    · exact pure fun _ _ h => h.1

/-- The worker's loop against the capture side. -/
def finishingOutline : Outline (finishing S) where
  between := Position none none
  online := Position none none
  onDevice w := S.onDevice.isSome = true ∧ Position none none w
  ending := Ending
  ended := Reached
  failed := Failing
  handed event := ∀ error, event = .error error → error.provider ≠ "handoff"
  stable := position_stable none none
  online_stable := position_stable none none
  idle _ _ hquiet _ _ := promised_other (quiet_marks hquiet) _ _
  private_step _ _ _ hquiet h hs hp :=
    ⟨(Beside.of_private h).steady hs, promised_other (quiet_marks hquiet) _ _,
      (Beside.of_private h).position hp⟩
  staysOnline _ _ hp _ := hp
  goesLocal _ hs hp hcloud := ⟨hs.fallback hcloud, hp⟩
  online_between _ _ hp := hp
  received _ hs _ hmem error hevent := hs.inbox error (hevent ▸ hmem)
  surfaced error _ hhanded _ hp := ⟨hp.fence, fun _ => .provider (hhanded error rfl)⟩
  unlessFenced := unlessFenced_triple
  readPcm := readPcm_triple
  emit event _ := emit_triple event
  cloudFinal segment _ := cloudFinal_triple segment
  demoteLocal := demoteLocal_triple
  closedTest := closedTest_triple
  cloudStop := cloudStop_triple hfull hmarking
  localPass last := Triple.given fun hlocal => localPass_triple hfull hmarking hlocal last

theorem thread_triple : Triple (finishing S) (Position none none) (thread : Worker S Bool) GoesOn
      (fun _ _ => False) :=
  (finishingOutline hfull hmarking).thread (ended_triple hfull) failed_triple

end

theorem liveThread_triple :
    Triple (finishing S) (Position none none) (liveThread (.ok ()) : Worker S Bool) GoesOn
      (fun _ _ => False) :=
  bind (emit_triple _) fun _ => bind (emit_triple _) fun _ =>
    pure fun _ _ h => h

end Finishing

/-! ## Whole runs -/

/-- The threads of a source whose model loads. -/
inductive Loaded : Worker S Bool → Prop
  | thread : Loaded thread
  | liveThread : Loaded (liveThread (.ok ()))

theorem finishing_covered (hfull : S.prefixEnd = none) (hmarking : Finishing.Marking S) :
    Covered (finishing S) (fun w v => ∃ move, w.attend move = some v)
      (fun name w => callSucceeds name w = true ∧ endUnmoved name w = true) again
      (fun r w => Steady w ∧ ends Finishing.GoesOn (fun _ _ => False) r w) where
  env_inv _ _ := fun ⟨_, h⟩ hs => (attend_steady hs h).1
  env_rely _ _ := fun ⟨_, h⟩ hs => (attend_steady hs h).2
  allowed_assumed _ _ h := h
  stable r w v hrely hs h := by
    refine ⟨hs, ?_⟩
    rcases r with e | running
    · exact h.2
    · cases running with
      | true => exact Finishing.position_stable none none w v hrely h.2
      | false => exact Finishing.stopped_stable w v hrely h.2
  restart running p w hagain hs h := by
    cases running with
    | false => cases hagain
    | true =>
      cases hagain
      exact Finishing.thread_triple hfull hmarking w hs h.2

/-- Completed at the sealed end. -/
structure Finished (w : World S) : Prop where
  phase : w.gate.status.phase = .complete
  sealedEnd : w.sealedEnd = .ok (some w.journal.committed)

/-- In every interleaving in which the end has not moved when a worker that is through with it
    finds the input closed: whenever the worker completes, it is at the sealed end, with all of
    it committed, and the mark is set; and once the thread has ended the source is `Complete` at
    the sealed end, unless it never came to complete. -/
theorem completes_sealed (hfull : S.prefixEnd = none) (hmarking : Finishing.Marking S)
    {w : World S} (hstart : Steady w) (hopen : w.gate.fenced = false) {p : Worker S Bool}
    (hp : Loaded p) {u : World S × Worker S Bool}
    (hrun : Steps (fun w v => ∃ move, w.attend move = some v)
      (fun name w => callSucceeds name w = true ∧ endUnmoved name w = true) again (w, p) u) :
    (∀ last act next, u.2 = .step (.markComplete last) act next → Completes last u.1) ∧
      (u.2 = .done (.ok false) → Excused u.1.gate ∨ Finished u.1) := by
  have hposition : Position none none w := .start fun h => by
    rw [hopen] at h
    cases h
  have hsafe : Safe (finishing S)
      (fun r w => Steady w ∧ ends Finishing.GoesOn (fun _ _ => False) r w) p w := by
    cases hp with
    | thread => exact Finishing.thread_triple hfull hmarking w hstart hposition
    | liveThread => exact Finishing.liveThread_triple w hstart hposition
  obtain ⟨t, q⟩ := u
  constructor
  · rintro last act next rfl
    exact hrun.promised (finishing_covered hfull hmarking) hstart hsafe ⟨rfl, rfl⟩ last rfl
  · rintro rfl
    obtain ⟨hs, -, hstopped⟩ := hrun.sound (finishing_covered hfull hmarking) hstart hsafe
    rcases hstopped with hexcused | ⟨-, hphase, hclosed, hcommitted⟩
    · exact .inl hexcused
    · refine .inr ⟨hphase, ?_⟩
      rw [hcommitted]
      exact (hs.closed hclosed).1

/-! ## Two samples, captured and closed -/

/-- A local source before any audio. -/
def freshSource : World sampleSetup := sampleWorld sampleSetup localHeader [] none

/-- Two samples are written, and `finish` stops, seals and closes. -/
def captureTurns : List (Turn Move) :=
  [.env (.append ⟨.done, .done, none⟩ [5, 6]), .env .storeEnd, .env .requestStop,
    .env (.sealInput ⟨true, true, .done⟩), .env .closeInput]

theorem freshSource_steady : Steady freshSource where
  stored := by
    refine ⟨?_, ?_, ?_⟩
    · exact le_refl 85
    · exact Nat.zero_le _
    · intro writer hwriter _
      cases hwriter
      exact ⟨rfl, rfl⟩
  capturing := by
    refine ⟨_, rfl, rfl, rfl, ?_, ?_, ?_, nofun, nofun, nofun⟩
    · refine bind_eq_ok.mpr ⟨freshSource.file, rfl, fromFile_eq_ok.mpr ?_⟩
      have hcount : headerLength freshSource.file.bytes = 73 := by decide
      exact ⟨by decide, nofun, by decide, ⟨rfl, by rw [hcount]; rfl, by decide,
        by decide⟩, rfl, rfl, rfl, rfl⟩
    · rfl
    · rfl
  covered := Nat.zero_le _
  sound := Coverage.Sound.fromHeader localHeader
  fallback _ := rfl
  inbox _ h := nomatch h

/-- Captured and closed before the worker's first pass: all is covered and the source is
    `Complete`. -/
theorem completes_sealed_captured :
    ∃ t, Lib.play World.attend (fun name w => callSucceeds name w && endUnmoved name w) again
        (captureTurns ++ List.replicate 22 .own) (freshSource, thread) =
          some (t, .done (.ok false)) ∧
      t.journal.committed = 2 ∧ Finished t := by
  obtain ⟨t, hu, hcommitted, hphase⟩ : ∃ t, Lib.play World.attend
        (fun name w => callSucceeds name w && endUnmoved name w) again
        (captureTurns ++ replicate 22 .own) (freshSource, thread) =
          some (t, .done (.ok false)) ∧
      t.journal.committed = 2 ∧ t.gate.status.phase = .complete :=
    ⟨_, rfl, rfl, rfl⟩
  have hrun : Steps (fun w v => ∃ move, w.attend move = some v)
      (fun name w => callSucceeds name w = true ∧ endUnmoved name w = true) again
      (freshSource, thread) (t, .done (.ok false)) :=
    (Steps.play .refl hu).mono (fun _ _ h => h) fun _ _ h => Bool.and_eq_true_iff.mp h
  refine ⟨t, hu, hcommitted, ?_⟩
  rcases (completes_sealed rfl ⟨rfl, rfl⟩ freshSource_steady rfl .thread hrun).2 rfl with h | h
  · rw [h.phase] at hphase
    cases hphase
  · exact h

/-- The same capture, between the worker's load of the end and its test of the closed flag.
    No call fails, but the source completes at the end it has loaded: the mark is refused, and
    the source is `Incomplete` with nothing of its two samples covered. -/
theorem complete_stale : (Lib.play World.attend callSucceeds again
        (List.replicate 6 .own ++ captureTurns ++ List.replicate 7 .own)
        (freshSource, thread)).bind (fun u => match u.2 with
          | .step (.markComplete last) _ _ => some (last, u.1.sealedEnd.toOption)
          | _ => none) = some (0, some (some 2)) ∧
      (Lib.play World.attend callSucceeds again
        (List.replicate 6 .own ++ captureTurns ++ List.replicate 9 .own)
        (freshSource, thread)).bind (fun u => match u.2 with
          | .done (.ok running) => some (running, u.1.journal.committed,
              u.1.gate.status.phase, u.1.gate.status.error)
          | _ => none) =
        some (false, 0, .incomplete,
          some "completion must cover the entire aligned replay stream") := by
  constructor <;> decide

end FlyOnTheWall.Stream
