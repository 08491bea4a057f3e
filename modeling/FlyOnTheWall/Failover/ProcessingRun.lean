/-
  Runs of the writing side: blocks recorded and appended one after another.

  Assumed of JSON (`Faithful`): a line holds no newline and reads back as what was written.

  * `Recorded`: what the two files and the journal hold after some blocks; `Recorded.step`
    keeps it over one call, `run_recorded` over any run in which no write fails.
  * `provenance_checked`: what is accepted, that what was recorded is, and that no damage is.
  * `provenance_unnoticed`: what the evidence does not speak of.
-/
import FlyOnTheWall.Failover.CoverageSystem
import FlyOnTheWall.Failover.ProcessingCheck

namespace FlyOnTheWall.Processing

open Lib Replay List DurableFile

variable {format : Format} {session : String} {source : ReplaySource} {bytes : List UInt8}

/-! ## What the writing side keeps -/

/-- Assumed of JSON. -/
structure Faithful (format : Format) : Prop where
  header : ∀ h, format.header.fromSlice (format.header.toVec h ++ [newline]) = some h
  headerLine : ∀ h, newline ∉ format.header.toVec h
  interval : ∀ i, format.interval.fromSlice (format.interval.toVec i ++ [newline]) = some i
  intervalLine : ∀ i, newline ∉ format.interval.toVec i

/-- A block as it was recorded: its line and its samples. -/
structure Block where
  interval : Interval
  pcm : List (BitVec 16)

/-- The line of an output of the processor. -/
def Output.block {φ : Type} (format : Format) (quantizer : Quantizer φ) (o : Output φ) : Block :=
  let pcm := o.samples.map quantizer.toI16
  ⟨⟨o.epoch, o.startSample, o.startSample + pcm.length, o.kind, digest format pcm⟩, pcm⟩

/-- The stream and its declaration when the source was opened: no audio yet. -/
structure Opening (format : Format) (json : Json) (session : String) (source : ReplaySource)
    (header : Header) (start : Reader) : Prop where
  opens : fromFile json.header start.file session source = .ok start
  empty : start.audioOffset = start.file.bytes.length
  declares : Declares format session source start header
  short : (format.header.toVec header).length < maxRecord

/-- The two files hold the blocks written so far, and the journal continues them. -/
structure Recorded (format : Format) (header : Header) (start : Reader) (s : Source)
    (blocks : List Block) : Prop where
  evidence : ∃ f, s.evidence = .file f ∧ f.bytes = frames newline
    (format.header.toVec header :: blocks.map (format.interval.toVec ·.interval))
  short : ∀ b ∈ blocks, (format.interval.toVec b.interval).length < maxRecord
  audio : ∃ a, s.stream.dir.audio = some a ∧
    a.bytes = start.file.bytes ++ encodePcm (blocks.flatMap (·.pcm))
  journal : ∃ j, s.processing = some j ∧
    j.endSample = start.firstSample + (blocks.flatMap (·.pcm)).length ∧
    j.epoch = blocks.getLast?.map (·.interval.epoch)
  certified : Certifies (digest format) Interval.start Interval.stop Interval.pcmSha256
    start.firstSample (blocks.map (·.interval)) (blocks.flatMap (·.pcm))
  formed : Formed (blocks.map (·.interval))
  clock : start.firstSample + (blocks.flatMap (·.pcm)).length ≤ u64Max

theorem Recorded.validates (hformat : Faithful format) {json : Json} {header : Header}
    {start : Reader} (hopening : Opening format json session source header start) {s : Source}
    {blocks : List Block} (h : Recorded format header start s blocks) :
    ∃ reader, openReader json s.stream.dir session source = .ok reader ∧
      reader.samples = blocks.flatMap (·.pcm) ∧
      validate format session source s.evidence reader =
        .ok (some (summary header.begin.snapshot (blocks.map (·.interval)))) := by
  obtain ⟨f, hf, hbytes⟩ := h.evidence
  obtain ⟨a, ha, habytes⟩ := h.audio
  have hopen : fromFile json.header a session source = .ok { start with file := a } :=
    fromFile_extends hopening.opens (habytes ▸ prefix_append _ _)
  have hsamples : ({ start with file := a } : Reader).samples = blocks.flatMap (·.pcm) := by
    show Reader.samplesOf (a.bytes.drop start.audioOffset) = _
    rw [habytes, hopening.empty, drop_left, Reader.samplesOf_encodePcm]
  have hlength : a.bytes.length - start.audioOffset = 2 * (blocks.flatMap (·.pcm)).length := by
    rw [habytes, hopening.empty, length_append, Nat.add_sub_cancel_left, encodePcm_length]
  have hend : savedEnd { start with file := a } =
      .ok (start.firstSample + (blocks.flatMap (·.pcm)).length) := by
    refine savedEnd_eq_ok.mpr ⟨Reader.availableEnd_eq_ok.mpr ⟨?_, ?_, h.clock⟩, ?_⟩
    · show start.audioOffset ≤ a.bytes.length
      rw [hopening.empty, habytes, length_append]
      exact Nat.le_add_right _ _
    · show _ = start.firstSample + (a.bytes.length - start.audioOffset) / 2
      rw [hlength, Nat.mul_div_cancel_left _ (by decide)]
    · show (a.bytes.length - start.audioOffset) % 2 = 0
      rw [hlength, Nat.mul_mod_right]
  refine ⟨{ start with file := a }, ?_, hsamples, ?_⟩
  · exact bind_eq_ok.mpr ⟨a, okOr_eq_ok.mpr ha, hopen⟩
  obtain ⟨htiles, hhashes⟩ := certifies_iff.mp h.certified
  have hidentity := (fromFile_opened hopen).2
  refine validate_iff.mpr
    ⟨⟨?_, _, hend⟩, f, header, _, hf, ⟨_, _, hbytes, ?_, hformat.header _, ?_⟩,
    hopening.declares.congr rfl, h.formed, ⟨?_, ?_⟩, rfl⟩
  · simpa [Reader.hasIdentity] using hidentity
  · refine forall_mem_cons.mpr ⟨⟨hformat.headerLine _, hopening.short⟩, ?_⟩
    rintro body hbody
    obtain ⟨b, hb, rfl⟩ := mem_map.mp hbody
    exact ⟨hformat.intervalLine _, h.short b hb⟩
  · simp [map_map, Function.comp_def, hformat.interval]
  · rw [hsamples]
    exact htiles
  · rw [hsamples]
    exact hhashes

/-! ## Runs of blocks -/

section Run
variable {φ : Type} {quantizer : Quantizer φ}

inductive Event (φ : Type)
  | write (io : WriteIo) (output : Output φ)
  | stop

/-- What a source does on an event, and the output it took. -/
def Source.step (format : Format) (quantizer : Quantizer φ) (s : Source) :
    Event φ → Source × Option (Output φ)
  | .write io output =>
    let result := s.writeProcessed format quantizer io output
    (result.2, if result.1 = .done then some output else none)
  | .stop => ({ s with stopRequested := true }, none)

/-- A run, and the outputs that were written. -/
def Source.run (format : Format) (quantizer : Quantizer φ) :
    Source → List (Event φ) → Source × List (Output φ)
  | s, [] => (s, [])
  | s, event :: events =>
    let next := s.step format quantizer event
    let rest := Source.run format quantizer next.1 events
    (rest.1, next.2.toList ++ rest.2)

/-- A source is opened: the stream with the fingerprint in its header, then the declaration. -/
def openProcessed (format : Format) (json : Json) (io : CreateIo) (evidenceIo : EvidenceIo)
    (stream : Stream) (evidence : Evidence) (rawPlan : Except IoError Bool) (session : String)
    (source : ReplaySource) (firstSample : ℕ) (descriptor : Descriptor) : Option Source :=
  match descriptor.fingerprint format with
  | .error _ => none
  | .ok fingerprint =>
    match stream.createWithProcessing json io session source firstSample fingerprint with
    | (.error _, _) => none
    | (.ok (), stream) =>
      match Journal.create format json evidenceIo stream.dir evidence rawPlan session source
          firstSample descriptor with
      | (.error _, _) => none
      | (.ok j, evidence) => some ⟨stream, evidence, some j, false, false⟩

theorem line_eq_ok {α : Type} {codec : Codec α} {value : α} (h : line codec value = .ok bytes) :
    bytes = codec.toVec value ++ [newline] ∧ (codec.toVec value).length < maxRecord := by
  obtain ⟨_, hshort, h⟩ := bind_eq_ok.mp h
  obtain rfl := Except.ok.inj h
  have hshort := of_decide_eq_false (refuseIf_eq_ok.mp hshort)
  rw [length_append, length_singleton] at hshort
  exact ⟨rfl, by omega⟩

variable {j : Journal} {epoch start : ℕ}

theorem check_eq_ok {count : ℕ} {u : Unit} (h : j.check epoch start count = .ok u) :
    start = j.endSample ∧ 1 ≤ count ∧ count ≤ 16000 ∧ (∀ e ∈ j.epoch, e ≤ epoch) ∧
      start + count ≤ u64Max := by
  have h := refuseIf_eq_ok.mp h
  simp only [Bool.or_eq_false_iff, bne_eq_false_iff_eq, any_lt_eq_false, Bool.not_eq_false',
    Bool.and_eq_true, decide_eq_true_eq] at h
  obtain ⟨⟨⟨⟨-, hstart⟩, hpos, hle⟩, hepoch⟩, hclock⟩ := h
  refine ⟨hstart, hpos, hle, hepoch, ?_⟩
  unfold checkedAdd at hclock
  split at hclock
  · assumption
  · cases hclock

variable {file : DurableFile} {pcm : List (BitVec 16)} {j' : Journal} {file' : DurableFile}
  {kind : Aec.OutputKind}

theorem record_ok {stop : Option ℕ}
    (h : j.record format stop file epoch start kind pcm = (.ok (), j', file')) :
    file'.bytes = file.bytes ++ (format.interval.toVec
        ⟨epoch, start, start + pcm.length, kind, digest format pcm⟩ ++ [newline]) ∧
      (format.interval.toVec ⟨epoch, start, start + pcm.length, kind, digest format pcm⟩).length <
        maxRecord ∧ j'.endSample = start + pcm.length ∧ j'.epoch = some epoch := by
  unfold Journal.record at h
  split at h
  · cases h
  rename_i last bytes hmade
  obtain ⟨_, hmade⟩ := bind_rest hmade
  obtain ⟨_, hlast, hmade⟩ := bind_eq_ok.mp hmade
  obtain ⟨_, hline, hmade⟩ := bind_eq_ok.mp hmade
  obtain ⟨rfl, rfl⟩ := Prod.mk.inj (Except.ok.inj hmade)
  obtain ⟨-, rfl⟩ := checkedAdd_eq_some.mp (okOr_eq_ok.mp hlast)
  obtain ⟨rfl, hshort⟩ := line_eq_ok hline
  dsimp only at h
  split at h
  · next hdone =>
    cases h
    exact ⟨(writeAll_complete hdone).1, hshort, rfl, rfl⟩
  · cases h

theorem sync_ok {synced : Bool} (h : j.sync synced file = (.ok (), j', file')) :
    file'.bytes = file.bytes ∧ j' = j := by
  unfold Journal.sync at h
  split at h
  · cases h
  · split at h
    · cases h
      exact ⟨rfl, rfl⟩
    · cases h

variable {io : WriteIo} {s t : Source}

theorem syncWriter_ok {w : Writer} (h : s.syncWriter io j file w = (true, t)) :
    (∃ f, t.evidence = .file f ∧ f.bytes = file.bytes) ∧ t.processing = some j ∧
      t.terminal = s.terminal ∧
      ∀ a, s.stream.dir.audio = some a → ∃ a', t.stream.dir.audio = some a' ∧
        a'.bytes = a.bytes := by
  unfold Source.syncWriter at h
  split at h
  · cases h
  rename_i hsync
  obtain ⟨hbytes, rfl⟩ := sync_ok hsync
  split at h
  · cases h
  rename_i n stream haudio
  cases h
  refine ⟨⟨_, rfl, hbytes⟩, rfl, rfl, fun a ha => ?_⟩
  unfold Stream.syncAs at haudio
  split at haudio
  · cases haudio
  · split at haudio
    · cases haudio
      exact ⟨a.sync, by simp [ha], rfl⟩
    · cases haudio

theorem appendBlock_ok (hevidence : s.evidence = .file file) (hj : s.processing = some j)
    (hpcm : pcm ≠ []) (h : s.appendBlock io j file pcm = (true, t)) :
    (∃ f, t.evidence = .file f ∧ f.bytes = file.bytes) ∧ t.processing = some j ∧
      t.terminal = s.terminal ∧ ∃ a a', s.stream.dir.audio = some a ∧
        t.stream.dir.audio = some a' ∧ a'.bytes = a.bytes ++ encodePcm pcm := by
  unfold Source.appendBlock at h
  split at h
  · next stream happend =>
    obtain ⟨-, -, a, a', ha, ha', hbytes⟩ := append_ok happend hpcm
    split at h
    · obtain ⟨hf, hp, hterminal, haudio⟩ := syncWriter_ok h
      obtain ⟨a'', ha'', hsame⟩ := haudio a' ha'
      exact ⟨hf, hp, hterminal, a, a'', ha, ha'', hsame.trans hbytes⟩
    · cases h
      exact ⟨⟨file, hevidence, rfl⟩, hj, rfl, a, a', ha, ha', hbytes⟩
  · cases h

theorem writeBlock_ok (hpcm : pcm ≠ [])
    (h : s.writeBlock format io j file epoch start kind pcm = (true, t)) :
    (∃ f, t.evidence = .file f ∧ f.bytes = file.bytes ++ (format.interval.toVec
        ⟨epoch, start, start + pcm.length, kind, digest format pcm⟩ ++ [newline])) ∧
      (format.interval.toVec ⟨epoch, start, start + pcm.length, kind, digest format pcm⟩).length <
        maxRecord ∧
      (∃ j', t.processing = some j' ∧ j'.endSample = start + pcm.length ∧ j'.epoch = some epoch) ∧
      t.terminal = s.terminal ∧ ∃ a a', s.stream.dir.audio = some a ∧
        t.stream.dir.audio = some a' ∧ a'.bytes = a.bytes ++ encodePcm pcm := by
  unfold Source.writeBlock at h
  split at h
  · cases h
  rename_i j1 file1 hrecord
  obtain ⟨hbytes, hshort, hend, hepoch⟩ := record_ok hrecord
  split at h
  · cases h
  · next j2 file2 hsync =>
    obtain ⟨hsame, rfl⟩ := sync_ok hsync
    obtain ⟨⟨f, hf, hfbytes⟩, hp, hterminal, haudio⟩ := appendBlock_ok rfl rfl hpcm h
    exact ⟨⟨f, hf, by rw [hfbytes, hsame, hbytes]⟩, hshort, ⟨_, hp, hend, hepoch⟩, hterminal,
      haudio⟩

variable {header : Header} {blocks : List Block} {start : Reader}

theorem Recorded.concat (h : Recorded format header start s blocks)
    {output : Output φ} (hwrite : s.writeProcessed format quantizer io output = (.done, t)) :
    Recorded format header start t (blocks ++ [output.block format quantizer]) := by
  obtain ⟨f, hf, hbytes⟩ := h.evidence
  obtain ⟨a, ha, habytes⟩ := h.audio
  obtain ⟨j, hj, hend, hepoch⟩ := h.journal
  unfold Source.writeProcessed at hwrite
  rw [hj, hf] at hwrite
  dsimp only at hwrite
  split at hwrite
  · cases hwrite
  split at hwrite
  · cases hwrite
  split at hwrite
  · cases hwrite
  · next hcheck =>
    obtain ⟨hstart, hpos, hle, hepochs, hclock⟩ := check_eq_ok hcheck
    split at hwrite
    · next t' hblock =>
      cases hwrite
      have hlen : (output.samples.map quantizer.toI16).length = output.samples.length :=
        length_map _
      have hne : output.samples.map quantizer.toI16 ≠ [] := by
        rw [← length_pos_iff, hlen]
        omega
      obtain ⟨⟨f', hf', hfbytes⟩, hshort, hjournal, -, a0, a', ha0, ha', haudio⟩ :=
        writeBlock_ok hne hblock
      obtain rfl := Option.some.inj (ha.symm.trans ha0)
      have hpcm : (blocks ++ [output.block format quantizer]).flatMap (·.pcm) =
          blocks.flatMap (·.pcm) ++ output.samples.map quantizer.toI16 := by
        rw [flatMap_append, flatMap_singleton]
        rfl
      have hsum : output.startSample + output.samples.length = start.firstSample +
          (blocks.flatMap (·.pcm) ++ output.samples.map quantizer.toI16).length := by
        rw [length_append, hlen]
        omega
      refine ⟨⟨f', hf', ?_⟩, ?_, ⟨a', ha', ?_⟩, ?_, ?_, ?_, ?_⟩
      · rw [hfbytes, hbytes, map_append, ← cons_append, frames_append]
        simp [Output.block]
      · intro b hb
        rcases mem_append.mp hb with hb | hb
        · exact h.short b hb
        · obtain rfl := mem_singleton.mp hb
          exact hshort
      · rw [haudio, habytes, hpcm, encodePcm, encodePcm, encodePcm, flatMap_append, append_assoc]
      · obtain ⟨j', hj', hend', hepoch'⟩ := hjournal
        refine ⟨j', hj', ?_, ?_⟩
        · rw [hend', hpcm, hlen, hsum]
        · rw [hepoch', getLast?_append, getLast?_singleton]
          rfl
      · rw [hpcm, map_append]
        exact h.certified.concat (hstart.trans hend) rfl hne rfl
      · rw [map_append]
        refine h.formed.concat ?_ ?_
        · show output.startSample + (output.samples.map quantizer.toI16).length -
            output.startSample ≤ 16000
          omega
        · rw [getLast?_map, Option.map_map]
          exact hepoch ▸ hepochs
      · rw [hpcm, ← hsum]
        exact hclock
    · cases hwrite

/-- A write is refused and nothing changes, or it fails and publication is fenced, or the block
    is written. -/
theorem writeProcessed_cases (format : Format) (quantizer : Quantizer φ) (s : Source)
    (io : WriteIo) (output : Output φ) :
    s.writeProcessed format quantizer io output = (.refused, s) ∨
      (∃ t, s.writeProcessed format quantizer io output = (.failed, t) ∧ t.terminal = true) ∨
      ∃ t, s.writeProcessed format quantizer io output = (.done, t) ∧ t.terminal = s.terminal := by
  unfold Source.writeProcessed
  split
  · exact .inl rfl
  rename_i hsize
  split
  · exact .inl rfl
  split
  · split
    · exact .inl rfl
    · split
      · next t hblock =>
        have hne : output.samples.map quantizer.toI16 ≠ [] := by
          intro h0
          rw [map_eq_nil_iff] at h0
          exact hsize (by simp [h0])
        obtain ⟨-, -, -, hterminal, -⟩ := writeBlock_ok hne hblock
        exact .inr (.inr ⟨t, rfl, hterminal⟩)
      · exact .inr (.inl ⟨_, rfl, rfl⟩)
  · exact .inl rfl

theorem step_terminal (hs : s.terminal = true) (event : Event φ) :
    (s.step format quantizer event).1.terminal = true := by
  cases event with
  | stop => exact hs
  | write io output =>
    rcases writeProcessed_cases format quantizer s io output with
      h | ⟨t, h, ht⟩ | ⟨t, h, ht⟩
    · simp only [Source.step, h, hs]
    · simp only [Source.step, h, ht]
    · simp only [Source.step, h, ht, hs]

theorem run_terminal (format : Format) (quantizer : Quantizer φ) (hs : s.terminal = true)
    (events : List (Event φ)) : (s.run format quantizer events).1.terminal = true := by
  induction events generalizing s with
  | nil => exact hs
  | cons event events ih => exact ih (step_terminal hs event)

theorem Recorded.step (h : Recorded format header start s blocks) (event : Event φ)
    (hlive : (s.step format quantizer event).1.terminal = false) :
    Recorded format header start (s.step format quantizer event).1
      (blocks ++ (s.step format quantizer event).2.toList.map (Output.block format quantizer)) := by
  cases event with
  | stop =>
    rw [show (s.step format quantizer .stop).2.toList.map (Output.block format quantizer) = []
      from rfl, append_nil]
    exact { h with }
  | write io output =>
    rcases writeProcessed_cases format quantizer s io output with
      hw | ⟨t, hw, ht⟩ | ⟨t, hw, -⟩
    · simp only [Source.step, hw]
      simpa using h
    · simp only [Source.step, hw, ht] at hlive
      cases hlive
    · simp only [Source.step, hw]
      exact h.concat hw

/-- Any run in which no write fails: both files hold exactly the outputs that were taken. -/
theorem run_recorded (events : List (Event φ)) (h : Recorded format header start s blocks)
    (hlive : (s.run format quantizer events).1.terminal = false) :
    Recorded format header start (s.run format quantizer events).1
      (blocks ++ (s.run format quantizer events).2.map (Output.block format quantizer)) := by
  induction events generalizing s blocks with
  | nil =>
    show Recorded format header start s (blocks ++ [])
    rw [append_nil]
    exact h
  | cons event events ih =>
    have hstep : (s.step format quantizer event).1.terminal = false := by
      cases hnext : (s.step format quantizer event).1.terminal with
      | false => rfl
      | true =>
        have hend := run_terminal format quantizer hnext events
        exact absurd (hend.symm.trans hlive) (by decide)
    have hrest := ih (h.step event hstep) hlive
    rw [append_assoc, ← map_append] at hrest
    exact hrest

variable {json : Json} {firstSample : ℕ}

/-- A stream that was just created has a header and no audio. -/
theorem createWithProcessing_ok {io : CreateIo} {s t : Stream} {fingerprint : String}
    (h : s.createWithProcessing json io session source firstSample fingerprint = (.ok (), t)) :
    ∃ file, t.dir.audio = some file ∧ file.bytes.length = 12 + headerLength file.bytes := by
  unfold Stream.createWithProcessing at h
  split at h
  · cases h
  · obtain ⟨hsize, file, rfl, hbytes⟩ := createInner_ok h
    exact ⟨file, rfl, hbytes ▸ newStream_length hsize⟩

theorem openProcessed_recorded {io : CreateIo} {evidenceIo : EvidenceIo} {stream : Stream}
    {evidence : Evidence} {rawPlan : Except IoError Bool} {descriptor : Descriptor}
    (hclock : firstSample ≤ u64Max)
    (h : openProcessed format json io evidenceIo stream evidence rawPlan session source firstSample
      descriptor = some s) :
    ∃ header start, Opening format json session source header start ∧
      Recorded format header start s [] := by
  unfold openProcessed at h
  split at h
  · cases h
  split at h
  · cases h
  rename_i stream' hcreate
  obtain ⟨file, hfile, hlength⟩ := createWithProcessing_ok hcreate
  split at h
  · cases h
  rename_i j evidence' hjournal
  cases h
  unfold Journal.create at hjournal
  split at hjournal
  · cases hjournal
  rename_i bytes hchecks
  obtain ⟨_, hchecks⟩ := bind_rest hchecks
  obtain ⟨start, hopen, hchecks⟩ := bind_eq_ok.mp hchecks
  obtain ⟨_, hprint, hchecks⟩ := bind_eq_ok.mp hchecks
  obtain ⟨hbound, hchecks⟩ := refuseIf_bind_ok.mp hchecks
  obtain ⟨_, _, hchecks⟩ := bind_rest2 hchecks
  obtain ⟨_, hchecks⟩ := bind_rest hchecks
  obtain ⟨line, hline, hchecks⟩ := bind_eq_ok.mp hchecks
  obtain rfl : line = bytes := by
    cases evidence with
    | absent => exact Except.ok.inj hchecks
    | irregular | unreadable | file => cases hchecks
  obtain ⟨rfl, hshort⟩ := line_eq_ok hline
  simp only [Bool.or_eq_false_iff, bne_eq_false_iff_eq] at hbound
  obtain ⟨rfl, hid⟩ := hbound
  obtain ⟨f, hf, hstart⟩ := bind_eq_ok.mp hopen
  obtain rfl := Option.some.inj (hfile.symm.trans (okOr_eq_ok.mp hf))
  obtain ⟨hopened, -, -⟩ := fromFile_opened hstart
  have hsame := hopened.file_eq
  dsimp only at hjournal
  split at hjournal
  · next hdone =>
    obtain ⟨hj, hevidence⟩ := Prod.mk.inj hjournal
    obtain rfl := Except.ok.inj hj
    subst hevidence
    simp only [Bool.and_eq_true] at hdone
    have hbytes := (writeAll_complete hdone.1.1).1
    refine ⟨⟨1, session, source, start.firstSample, descriptor⟩, start,
      ⟨?_, ?_, ⟨rfl, rfl, rfl, rfl, _, hprint, hid⟩, hshort⟩, ⟨⟨_, rfl, ?_⟩, nofun,
        ⟨file, hfile, ?_⟩, ⟨_, rfl, rfl, rfl⟩, rfl, ⟨nofun, Pairwise.nil⟩, hclock⟩⟩
    · rw [hsame]
      exact hstart
    · rw [hopened.offset, hsame, hlength]
    · rw [sync_bytes, hbytes]
      simp [empty]
    · rw [hsame]
      simp [encodePcm]
  · cases hjournal

end Run

/-! ## The evidence as a whole -/

/-- For every content of the two files: the evidence is accepted exactly if it declares this
    stream, its records are formed as the journal forms them, and they cover the retained
    samples end to end with their hashes. Whatever run of blocks was recorded, it is accepted
    as long as no write failed. And an accepted pair that is cut, extended, reordered or
    edited, in its records or in its samples, is not accepted any more. -/
theorem provenance_checked (hformat : Faithful format)
    (hinj : Function.Injective format.sha256) (session : String) (source : ReplaySource) :
    (∀ evidence audio, (∃ snap, validate format session source evidence audio = .ok (some snap)) ↔
        Retained session source audio ∧ ∃ f header records, evidence = .file f ∧
          Reads format f.bytes header records ∧ Declares format session source audio header ∧
          Formed records ∧ Covers format audio records) ∧
    (∀ (φ : Type) (quantizer : Quantizer φ) json io evidenceIo stream evidence rawPlan firstSample
        descriptor s (events : List (Event φ)), firstSample ≤ u64Max →
      openProcessed format json io evidenceIo stream evidence rawPlan session source firstSample
        descriptor = some s →
      (s.run format quantizer events).1.terminal = false →
      ∃ reader, openReader json (s.run format quantizer events).1.stream.dir session source =
          .ok reader ∧
        reader.samples = (s.run format quantizer events).2.flatMap
          (·.samples.map quantizer.toI16) ∧
        ∃ snap, validate format session source (s.run format quantizer events).1.evidence reader =
          .ok (some snap)) ∧
    (∀ x y, Accepted format session source x.1 x.2 → Damage format x y →
      ¬ Accepted format session source y.1 y.2) := by
  refine ⟨fun evidence audio => ?_, ?_, fun x y => damage_refused hinj⟩
  · constructor
    · rintro ⟨snap, h⟩
      obtain ⟨hretained, f, header, records, hf, hreads, hdeclares, hformed, hcovers, -⟩ :=
        validate_iff.mp h
      exact ⟨hretained, f, header, records, hf, hreads, hdeclares, hformed, hcovers⟩
    · rintro ⟨hretained, f, header, records, hf, hreads, hdeclares, hformed, hcovers⟩
      exact ⟨_, validate_iff.mpr
        ⟨hretained, f, header, records, hf, hreads, hdeclares, hformed, hcovers, rfl⟩⟩
  · intro φ quantizer json io evidenceIo stream evidence rawPlan firstSample descriptor s events
      hclock hopen hlive
    obtain ⟨header, start, hopening, hstart⟩ := openProcessed_recorded hclock hopen
    obtain ⟨reader, hreader, hsamples, hvalid⟩ :=
      (run_recorded events hstart hlive).validates hformat hopening
    refine ⟨reader, hreader, ?_, _, hvalid⟩
    rw [hsamples, nil_append, flatMap_map]
    rfl

/-! ## Two blocks

    A cleaned block of three samples and a raw one of two, with the JSON and the digests they
    really have. -/

deriving instance Countable for Descriptor
deriving instance Countable for ReplaySource
deriving instance Countable for Header
deriving instance Countable for Aec.BypassReason
deriving instance Countable for Aec.OutputKind
deriving instance Countable for Interval

noncomputable instance : Encodable Header := Encodable.ofCountable Header
noncomputable instance : Encodable Interval := Encodable.ofCountable Interval

def sampleDescriptor : Descriptor := ⟨"fixture-aec", "1.0", "profile-v1"⟩

def descriptorText : String :=
  "\x7b\"backend\":\"fixture-aec\",\"version\":\"1.0\",\"profile\":\"profile-v1\"\x7d"

def firstDigest : List UInt8 := [
  242, 52, 215, 133, 232, 161, 180, 85, 233, 214, 203, 36, 225, 28, 10, 47,
  244, 40, 153, 148, 166, 210, 132, 160, 49, 172, 94, 208, 183, 184, 141, 100]

def secondDigest : List UInt8 := [
  135, 88, 4, 250, 76, 132, 240, 66, 185, 252, 150, 140, 79, 6, 160, 227,
  138, 102, 172, 194, 102, 213, 93, 175, 94, 89, 193, 182, 220, 94, 197, 80]

def descriptorDigest : List UInt8 := [
  164, 203, 168, 227, 18, 37, 233, 14, 129, 226, 198, 72, 87, 59, 247, 89,
  135, 174, 22, 81, 44, 15, 92, 169, 130, 38, 45, 127, 103, 72, 202, 26]

def sampleDigests : List (List UInt8 × List UInt8) := [
  (fingerprintTag ++ Coverage.utf8 descriptorText, descriptorDigest),
  ([11, 0, 22, 0, 33, 0], firstDigest),
  ([44, 0, 55, 0], secondDigest)]

def sampleHeader : Header := ⟨1, "fixture", .mic, 160, sampleDescriptor⟩
def cleanedBlock : Interval := ⟨7, 160, 163, .cleaned, hex firstDigest⟩
def rawBlock : Interval := ⟨8, 163, 165, .raw .missingReference, hex secondDigest⟩

/-- The cleaned block, said to be raw. -/
def relabelled : Interval := { cleanedBlock with kind := .raw .reset }

/-- The raw block, said to be of an older epoch. -/
def backdated : Interval := { rawBlock with epoch := 6 }

def blockText (epoch start stop kind digest : String) : String :=
  "\x7b\"epoch\":" ++ epoch ++ ",\"start\":" ++ start ++ ",\"end\":" ++ stop ++
    ",\"kind\":\x7b\"kind\":" ++ kind ++ "\x7d,\"pcm_sha256\":\"" ++ digest ++ "\"\x7d"

def sampleHeaders : List (Header × List UInt8) := [(sampleHeader, Coverage.utf8 (
  "\x7b\"version\":1,\"session\":\"fixture\",\"source\":\"mic\",\"first_sample\":160," ++
  "\"descriptor\":" ++ descriptorText ++ "\x7d"))]

def firstHex : String := "f234d785e8a1b455e9d6cb24e11c0a2ff4289994a6d284a031ac5ed0b7b88d64"
def secondHex : String := "875804fa4c84f042b9fc968c4f06a0e38a66acc266d55daf5e59c1b6dc5ec550"
def missingText : String := "\"raw\",\"reason\":\"missing_reference\""

def sampleBlocks : List (Interval × List UInt8) := [
  (cleanedBlock, Coverage.utf8 (blockText "7" "160" "163" "\"cleaned\"" firstHex)),
  (rawBlock, Coverage.utf8 (blockText "8" "163" "165" missingText secondHex)),
  (relabelled, Coverage.utf8 (blockText "7" "160" "163" "\"raw\",\"reason\":\"reset\"" firstHex)),
  (backdated, Coverage.utf8 (blockText "6" "163" "165" missingText secondHex))]

noncomputable def sampleFormat : Format where
  header := tableCodec sampleHeaders
  interval := tableCodec sampleBlocks
  descriptor _ := Coverage.utf8 descriptorText
  sha256 := tableHash sampleDigests

theorem sampleHeaders_tabled : Tabled sampleHeaders :=
  ⟨by decide, by decide +kernel, by decide⟩

theorem sampleBlocks_tabled : Tabled sampleBlocks :=
  ⟨by decide, by decide +kernel, by decide⟩

theorem sampleFormat_faithful : Faithful sampleFormat where
  header := tableCodec_line sampleHeaders_tabled
  headerLine := tableCodec_oneLine sampleHeaders_tabled
  interval := tableCodec_line sampleBlocks_tabled
  intervalLine := tableCodec_oneLine sampleBlocks_tabled

theorem sampleFormat_injective : Function.Injective sampleFormat.sha256 :=
  tableHash_injective (by decide) (by decide)

def sampleStream : Replay.Header := ⟨"fixture", .mic, 16000, 160, some (hex descriptorDigest)⟩

def streamText : List UInt8 := Coverage.utf8 (
  "\x7b\"session_id\":\"fixture\",\"source\":\"mic\",\"sample_rate\":16000," ++
  "\"first_sample\":160,\"processing_id\":" ++
  "\"a4cba8e31225e90e81e2c648573bf75987ae16512c0f5ca982262d7f6748ca1a\"\x7d")

noncomputable def sampleJson : Json where
  header := ⟨fun _ => streamText, fun bytes =>
    if bytes = streamText then some sampleStream else none⟩
  boundary := ⟨fun _ => [], fun _ => none⟩
  projection := ⟨fun _ => [], fun _ => none⟩

def goodWrite : WriteIo := ⟨none, true, ⟨.done, .done, none⟩, true, true, true⟩

def sampleEvents : List (Event (BitVec 16)) := [
  .write goodWrite ⟨7, 160, .cleaned, [11, 22, 33]⟩,
  .write goodWrite ⟨7, 170, .cleaned, [9]⟩,
  .write goodWrite ⟨8, 163, .raw .missingReference, [44, 55]⟩,
  .stop]

def plainQuantizer : Quantizer (BitVec 16) := ⟨fun _ => true, id⟩

noncomputable def sampleSource : Option Source :=
  openProcessed sampleFormat sampleJson ⟨none, true, true, true⟩ ⟨none, true, true⟩
    ⟨⟨none, none, none, none, none⟩, none⟩ .absent (.ok false) "fixture" .mic 160 sampleDescriptor

/-- The block at the wrong place is refused on the way; the last byte of the evidence is then
    cut off. -/
theorem provenance_checked_two_blocks : ∃ s reader f, sampleSource = some s ∧
      (s.run sampleFormat plainQuantizer sampleEvents).1.evidence = .file f ∧
      reader.samples = [11, 22, 33, 44, 55] ∧
      Accepted sampleFormat "fixture" .mic f reader ∧
      ¬ Accepted sampleFormat "fixture" .mic (f.truncate (f.bytes.length - 1)) reader := by
  obtain ⟨hiff, hrun, hdamage⟩ :=
    provenance_checked sampleFormat_faithful sampleFormat_injective "fixture" .mic
  have hplay : sampleSource.map (fun s =>
      ((s.run sampleFormat plainQuantizer sampleEvents).1.terminal,
        (s.run sampleFormat plainQuantizer sampleEvents).2.map (·.samples))) =
        some (false, [[11, 22, 33], [44, 55]]) := by
    decide +kernel
  obtain ⟨s, hs, hplay⟩ := Option.map_eq_some_iff.mp hplay
  obtain ⟨hlive, htaken⟩ := Prod.mk.inj hplay
  obtain ⟨reader, -, hsamples, snap, hvalid⟩ := hrun (BitVec 16) plainQuantizer _ _ _ _ _ _ _ _ s
    sampleEvents (by decide) hs hlive
  obtain ⟨-, f, header, records, hf, hreads, -⟩ := (hiff _ reader).mp ⟨snap, hvalid⟩
  rw [hf] at hvalid
  have hpos : 0 < f.bytes.length := by
    obtain ⟨first, bodies, hbytes, -⟩ := hreads
    rw [hbytes, frames_cons, length_append, length_cons]
    omega
  have hshorter : (f.truncate (f.bytes.length - 1)).bytes ≠ f.bytes := by
    intro h
    have hlength := congrArg length h
    rw [truncate_bytes, length_take] at hlength
    omega
  refine ⟨s, reader, f, hs, hf, ?_, ⟨snap, hvalid⟩, ?_⟩
  · rw [hsamples]
    have hid : ∀ o : Output (BitVec 16), o.samples.map plainQuantizer.toI16 = o.samples :=
      fun o => map_id o.samples
    simp only [hid]
    rw [flatMap_def, htaken]
    rfl
  · exact hdamage (f, reader) (_, reader) ⟨snap, hvalid⟩
      (.truncated (List.take_prefix _ _) hshorter)

/-! ## What the evidence does not speak of -/

/-- The evidence of these records. -/
noncomputable def evidenceFile (records : List Interval) : DurableFile :=
  DurableFile.empty.write (frames newline
    (sampleFormat.header.toVec sampleHeader :: records.map sampleFormat.interval.toVec))

def sampleAudio : Reader where
  header := sampleStream
  audioOffset := 12 + streamText.length
  file := DurableFile.empty.write (magic ++ le32 streamText.length ++ streamText ++
    encodePcm [11, 22, 33, 44, 55])

theorem write_empty (h : bytes.length ≤ maxFileBytes) : (empty.write bytes).bytes = bytes := by
  show [] ++ bytes.take (maxFileBytes - 0) = bytes
  rw [nil_append, Nat.sub_zero, take_of_length_le h]

theorem sampleAudio_samples : sampleAudio.samples = [11, 22, 33, 44, 55] := by
  decide +kernel

theorem sampleAudio_retained : Retained "fixture" .mic sampleAudio :=
  ⟨by decide, 165, by decide +kernel⟩

theorem sampleHeader_declares : Declares sampleFormat "fixture" .mic sampleAudio sampleHeader :=
  ⟨rfl, rfl, rfl, rfl, hex descriptorDigest, by decide, rfl⟩

variable {records : List Interval}

section
variable
  (hfits : (frames newline (sampleFormat.header.toVec sampleHeader :: records.map
    sampleFormat.interval.toVec)).length ≤ maxRecord)
include hfits

theorem evidenceFile_reads :
    Reads sampleFormat (evidenceFile records).bytes sampleHeader records := by
  have hroom : maxRecord ≤ maxFileBytes := by decide
  refine ⟨sampleFormat.header.toVec sampleHeader, records.map sampleFormat.interval.toVec,
    write_empty (le_trans hfits hroom), ?_, sampleFormat_faithful.header sampleHeader, ?_⟩
  · intro body hbody
    refine ⟨?_, lt_of_lt_of_le (length_lt_length_frames hbody) hfits⟩
    rcases mem_cons.mp hbody with rfl | hbody
    · exact sampleFormat_faithful.headerLine sampleHeader
    · obtain ⟨i, -, rfl⟩ := mem_map.mp hbody
      exact sampleFormat_faithful.intervalLine i
  · rw [map_map]
    exact map_congr_left fun i _ => sampleFormat_faithful.interval i

theorem evidenceFile_accepted (hformed : Formed records)
    (hcovers : Covers sampleFormat sampleAudio records) :
    Accepted sampleFormat "fixture" .mic (evidenceFile records) sampleAudio :=
  ⟨_, validate_iff.mpr ⟨sampleAudio_retained, _, sampleHeader, records, rfl,
    evidenceFile_reads hfits, sampleHeader_declares, hformed, hcovers, rfl⟩⟩

end

/-- Neither the kind nor the epoch of a block is part of what it covers. -/
theorem sampleAudio_covered {first second : Interval} (hfirst : first.start = 160 ∧
      first.stop = 163 ∧ first.pcmSha256 = hex firstDigest)
    (hsecond : second.start = 163 ∧ second.stop = 165 ∧ second.pcmSha256 = hex secondDigest) :
    Covers sampleFormat sampleAudio [first, second] := by
  obtain ⟨hstart, hstop, hhash⟩ := hfirst
  obtain ⟨hstart', hstop', hhash'⟩ := hsecond
  have hdigest : digest sampleFormat [11, 22, 33] = hex firstDigest := by decide
  have hdigest' : digest sampleFormat [44, 55] = hex secondDigest := by decide
  refine ⟨?_, ?_⟩
  · rw [sampleAudio_samples]
    refine ⟨hstart, ?_, hstop ▸ hstart', ?_, hstop'⟩
    · rw [hstop]
      decide
    · rw [hstop, hstop']
      decide
  · rw [sampleAudio_samples]
    refine forall_mem_cons.mpr ⟨?_, forall_mem_singleton.mpr ?_⟩
    · rw [hstart, hstop, hhash]
      exact hdigest.symm
    · rw [hstart', hstop', hhash']
      exact hdigest'.symm

/-- A block that is relabelled is still accepted, and a block of an older epoch is refused
    although it covers its samples. -/
theorem provenance_unnoticed :
    (Accepted sampleFormat "fixture" .mic (evidenceFile [cleanedBlock, rawBlock]) sampleAudio ∧
      Accepted sampleFormat "fixture" .mic (evidenceFile [relabelled, rawBlock]) sampleAudio ∧
      relabelled ≠ cleanedBlock) ∧
    Reads sampleFormat (evidenceFile [cleanedBlock, backdated]).bytes sampleHeader
      [cleanedBlock, backdated] ∧
    Declares sampleFormat "fixture" .mic sampleAudio sampleHeader ∧
    Covers sampleFormat sampleAudio [cleanedBlock, backdated] ∧
    ¬ Accepted sampleFormat "fixture" .mic (evidenceFile [cleanedBlock, backdated])
      sampleAudio := by
  have hcovered : Covers sampleFormat sampleAudio [cleanedBlock, rawBlock] :=
    sampleAudio_covered ⟨rfl, rfl, rfl⟩ ⟨rfl, rfl, rfl⟩
  have hreads : Reads sampleFormat (evidenceFile [cleanedBlock, backdated]).bytes sampleHeader
      [cleanedBlock, backdated] := evidenceFile_reads (by decide +kernel)
  refine ⟨⟨?_, ?_, by decide⟩, hreads, sampleHeader_declares,
    sampleAudio_covered ⟨rfl, rfl, rfl⟩ ⟨rfl, rfl, rfl⟩, ?_⟩
  · exact evidenceFile_accepted (by decide +kernel) ⟨by decide, by decide⟩ hcovered
  · exact evidenceFile_accepted (by decide +kernel) ⟨by decide, by decide⟩
      (sampleAudio_covered ⟨rfl, rfl, rfl⟩ ⟨rfl, rfl, rfl⟩)
  · rintro ⟨snap, h⟩
    obtain ⟨-, _, _, records, hf, hreads', -, hformed, -⟩ := validate_iff.mp h
    cases hf
    rw [← hreads.unique hreads'] at hformed
    exact absurd hformed.epochs (by decide)

end FlyOnTheWall.Processing
