/-
  The finals of a cloud provider and the journal.

  A final ends a commit at its own end, in samples. The journal takes a commit only if its
  segment starts at the committed boundary or later; the worker does not hand over a final that
  ends at that boundary or before it. So a final that overlaps the one before it ends the
  source, one that ends where it did is left out although its audio counts as covered, and one
  whose end was rounded up past the saved audio ends the source too.

  `InSequence` is what is left: a list of finals is kept, and the source keeps running, exactly
  if every final starts where the coverage stands or later, ends after it, and ends within the
  saved audio (`heard_iff_inSequence`).
-/
import FlyOnTheWall.Failover.Saved

namespace FlyOnTheWall.Stream

open Lib Replay Coverage Endpoint Handoff List World

variable {S : Setup}

/-! ## Finals one after the other -/

variable (finals : List TranscriptSegment) {j : Journal}

/-- The worker takes the finals of the provider in turn. -/
def hearFinals : Worker S Unit :=
  Proc.forEach cloudFinal finals

/-- The source keeps running, and every final is in the journal. -/
structure Heard (w : World S) (finals : List TranscriptSegment) : Prop where
  running : ((hearFinals finals).run w).1 = .ok ()
  recorded : ∀ segment ∈ finals, ∃ commit ∈ ((hearFinals finals).run w).2.journal.commits,
    segment ∈ commit.segments

/-- Every final starts in the millisecond the coverage has reached or later, ends after what is
    covered, and ends within the saved audio. -/
def InSequence (saved : ℕ) : ℕ → List TranscriptSegment → Prop
  | _, [] => True
  | committed, segment :: rest =>
    committed / 16 ≤ segment.startMs ∧ committed < segment.endMs * 16 ∧
      segment.endMs * 16 ≤ saved ∧ InSequence saved (segment.endMs * 16) rest

instance decidableInSequence (saved : ℕ) :
    (committed : ℕ) → (finals : List TranscriptSegment) →
    Decidable (InSequence saved committed finals)
  | _, [] => isTrue trivial
  | _, segment :: rest =>
    @instDecidableAnd _ _ _ (@instDecidableAnd _ _ _
      (@instDecidableAnd _ _ _ (decidableInSequence saved (segment.endMs * 16) rest)))

/-- A segment as a provider confirms it for the source: of this session, source and engine, its
    times in order and its words inside it. -/
structure Confirmed (j : Journal) (segment : TranscriptSegment) : Prop where
  named : segment.id.isEmpty = false
  final : segment.isFinal = true
  session : segment.sessionId = j.header.sessionId
  source : segment.source = j.header.source
  provider : segment.provider = j.epoch.engine.provider
  model : segment.model = j.epoch.engine.model
  ordered : segment.startMs ≤ segment.endMs
  confidence : segment.confidence.any (!·.isFinite) = false
  words : segment.words.any (Journal.refusesWord segment) = false

/-- The records of finals that are all committed, from `committed` on. -/
def receipts (epoch : ℕ) : ℕ → List TranscriptSegment → List Coverage.Entry
  | _, [] => []
  | committed, segment :: rest =>
    .committed ⟨epoch, committed, segment.endMs * 16, [segment], none⟩ ::
      receipts epoch (segment.endMs * 16) rest

def recordBytes (codec : Codec Coverage.Entry) (entries : List Coverage.Entry) : ℕ :=
  (entries.map fun entry => (codec.toVec entry).length + 1).sum

/-- The disk takes these records: no call fails, none is too long, and there is room. -/
structure Takes (w : World S) (entries : List Coverage.Entry) : Prop where
  healthy : w.journal.failed = false
  audioSync : ∀ n, (S.journalIo n).audioSync = true
  write : ∀ n, (S.journalIo n).write = none
  sync : ∀ n, (S.journalIo n).sync = true
  short : ∀ entry ∈ entries, (S.codec.toVec entry).length < maxRecordBytes
  room : w.journalFile.bytes.length + recordBytes S.codec entries ≤ maxFileBytes
  counted : w.journal.validBytes + recordBytes S.codec entries ≤ u64Max

/-- A source that is listening to its provider: open, with a sound journal over saved audio,
    and finals that are new to it. -/
structure Listening (w : World S) (finals : List TranscriptSegment) : Prop where
  unfenced : w.gate.fenced = false
  stored : Stored w
  first : w.reader.firstSample ≤ w.journal.committed
  sound : Coverage.Sound w.journal
  confirmed : ∀ segment ∈ finals, Confirmed w.journal segment
  distinct : (finals.map (·.id)).Nodup
  fresh : ∀ segment ∈ finals, segment.id ∉ w.journal.ids
  takes : Takes w (receipts w.journal.epoch.number w.journal.committed finals)

/-! ## One commit -/

/-- What a commit leaves on the worker's side, up to what it publishes. -/
structure Committed (w v : World S) (throughSample : ℕ) (segment : TranscriptSegment) : Prop where
  gate : v.gate.fenced = w.gate.fenced
  reader : v.reader = w.reader
  owner : v.stream.owner = w.stream.owner
  bytes : v.file.bytes = w.file.bytes
  journal : v.journal = { w.journal.accept (w.handed throughSample [segment] none) with
    validBytes := w.journal.validBytes + ((S.codec.toVec (.committed
      (w.handed throughSample [segment] none))).length + 1) }
  file : v.journalFile.bytes.length = w.journalFile.bytes.length +
    ((S.codec.toVec (.committed (w.handed throughSample [segment] none))).length + 1)

open Coverage Journal Proc

theorem append_done {codec : Codec Coverage.Entry} (io : Coverage.Io)
    {file : DurableFile} {entry : Coverage.Entry} (hhealthy : j.failed = false)
    (hwrite : io.write = none) (hsync : io.sync = true)
    (hshort : (codec.toVec entry).length < maxRecordBytes)
    (hroom : file.bytes.length + ((codec.toVec entry).length + 1) ≤ maxFileBytes)
    (hcounted : j.validBytes + ((codec.toVec entry).length + 1) ≤ u64Max) :
    ∃ file', append codec io j file entry =
        (.ok (), { j with validBytes := j.validBytes + ((codec.toVec entry).length + 1) }, file') ∧
      file'.bytes.length = file.bytes.length + ((codec.toVec entry).length + 1) := by
  have hready : (do j.healthy; encode codec entry) =
      (.ok (codec.toVec entry ++ [newline]) : Except IoError (List UInt8)) := by
    refine refuseIf_bind_ok.mpr ⟨hhealthy, ?_⟩
    refine refuseIf_bind_ok.mpr ⟨?_, rfl⟩
    simp only [decide_eq_false_iff_not]
    omega
  have hlength : (codec.toVec entry ++ [newline]).length = (codec.toVec entry).length + 1 := by
    rw [length_append]
    rfl
  have hall : (file.writeAll (codec.toVec entry ++ [newline]) io.write).2 = true := by
    rw [hwrite]
    refine decide_eq_true ?_
    rw [hlength]
    exact hroom
  have hwritten := (DurableFile.writeAll_complete hall).1
  have hrecord : writeRecord io (codec.toVec entry ++ [newline]) file =
      ((file.writeAll (codec.toVec entry ++ [newline]) io.write).1.sync, true) := by
    unfold writeRecord
    rw [if_pos hall, hsync]
    rfl
  have hadd : checkedAdd j.validBytes (codec.toVec entry ++ [newline]).length =
      some (j.validBytes + ((codec.toVec entry).length + 1)) := by
    rw [hlength]
    exact checkedAdd_eq_some.mpr ⟨hcounted, rfl⟩
  refine ⟨(file.writeAll (codec.toVec entry ++ [newline]) io.write).1.sync, ?_, ?_⟩
  · unfold append
    rw [hready]
    dsimp only
    rw [hrecord, hadd]
    rfl
  · show (file.writeAll (codec.toVec entry ++ [newline]) io.write).1.bytes.length = _
    rw [hwritten, length_append, hlength]

variable {w v : World S} {throughSample : ℕ} {segment : TranscriptSegment}

theorem journalCommit_new (hsound : Coverage.Sound w.journal) (hstored : Stored w)
    (hvalid : w.journal.validateCommit w.live (w.handed throughSample [segment] none) = .ok ())
    (htakes : Takes w [.committed (w.handed throughSample [segment] none)]) :
    ∃ v, w.journalCommit throughSample [segment] = (.ok .new, v) ∧
      Committed w v throughSample segment := by
  have hroom := htakes.room
  have hcounted := htakes.counted
  obtain ⟨file', happend, hfile'⟩ := append_done (S.journalIo w.journalCalls)
    htakes.healthy (htakes.write _) (htakes.sync _)
    (htakes.short _ (mem_singleton.mpr rfl)) hroom hcounted
  obtain ⟨hshape, hprobe⟩ := Journal.validateCommit_eq_ok.mp hvalid
  obtain ⟨hfirst, hlast⟩ := (hstored.probe throughSample).mp hprobe
  have hready : (do
      w.journal.healthy
      refuseIf (w.journal.epoch.number != w.journal.epoch.number)
        (invalid "stale provider epoch")) = (.ok () : Except IoError Unit) := by
    refine refuseIf_bind_ok.mpr ⟨htakes.healthy, refuseIf_eq_ok.mpr ?_⟩
    simp
  have hnone : (w.journal.commits.find? fun c => c.fromSample == w.journal.committed &&
      c.throughSample == throughSample) = none := by
    refine find?_eq_none.mpr fun c hc hsame => ?_
    have hlt := hsound.tiles.lo_lt hc
    simp only [Bool.and_eq_true, beq_iff_eq] at hsame
    omega
  have hsync : w.live.syncThrough throughSample true =
      (.ok (), { w.live with file := w.live.file.sync }) := by
    unfold Reader.syncThrough
    rw [hstored.availableEnd]
    dsimp only
    rw [if_neg (by show ¬(throughSample < w.reader.firstSample ∨ throughSample > w.saved); omega),
      if_pos rfl]
  have hrecord : Journal.commit S.codec (S.journalIo w.journalCalls)
      ⟨w.journal, w.journalFile, w.live⟩ w.journal.epoch.number w.journal.committed throughSample
      [segment] = (.ok .new, ⟨{ w.journal.accept (w.handed throughSample [segment] none) with
        validBytes := w.journal.validBytes + ((S.codec.toVec (.committed
          (w.handed throughSample [segment] none))).length + 1) }, file',
        { w.live with file := w.live.file.sync }⟩) := by
    unfold Journal.commit Journal.record
    dsimp only
    rw [hready]
    rw [hnone]
    rw [show w.journal.validateCommit w.live
      ⟨w.journal.epoch.number, w.journal.committed, throughSample, [segment], none⟩ = .ok () from
      hvalid]
    rw [htakes.audioSync, hsync]
    rw [show Journal.append S.codec (S.journalIo w.journalCalls) w.journal w.journalFile
      (.committed ⟨w.journal.epoch.number, w.journal.committed, throughSample, [segment], none⟩) =
      _ from happend]
    rfl
  refine ⟨(w.journalCommit throughSample [segment]).2, ?_, ?_⟩
  · refine Prod.ext ?_ rfl
    unfold journalCommit onJournal
    dsimp only
    rw [hrecord]
    rfl
  · unfold journalCommit onJournal
    dsimp only
    rw [hrecord]
    exact ⟨rfl, rfl, rfl, rfl, rfl, hfile'⟩

/-- A commit that returns `Ok` was valid, and is what the journal has gained. -/
theorem journalCommit_valid {segments : List TranscriptSegment} {outcome : CommitOutcome}
    (hsound : Coverage.Sound w.journal)
    (h : (w.journalCommit throughSample segments).1 = .ok outcome) :
    outcome = .new ∧
      Valid w.journal w.live (.committed (w.handed throughSample segments none)) := by
  obtain rfl := record_new hsound (mapError_eq_ok h)
  rcases record_wrote w throughSample segments none with ⟨hne, -⟩ | ⟨hvalid, -⟩
  · exact (hne h).elim
  · exact ⟨rfl, hvalid⟩

/-- Whatever comes of a commit, the journal has at most gained its segments. -/
theorem journalCommit_ids (throughSample : ℕ) (segment : TranscriptSegment)
    (hsound : Coverage.Sound w.journal) :
    Coverage.Sound (w.journalCommit throughSample [segment]).2.journal ∧
      (w.journalCommit throughSample [segment]).2.journal.ids ⊆ w.journal.ids ++ [segment.id] := by
  refine ⟨record_sound hsound throughSample [segment] none, ?_⟩
  show (w.journalRecord throughSample [segment] none).2.journal.ids ⊆ _
  rcases record_wrote w throughSample [segment] none with ⟨-, _, _, hj⟩ | ⟨-, _, hj⟩
  · rw [hj]
    exact subset_append_left _ _
  · rw [hj]
    exact Subset.refl _

/-! ## One final -/

/-- What a final hands in. -/
abbrev World.ofFinal (w : World S) (segment : TranscriptSegment) : CommittedAudio :=
  w.handed (segment.endMs * 16) [segment] none

/-- Publishing leaves the disk and the journal alone. -/
structure PublishOnly (w v : World S) : Prop where
  gate : v.gate.fenced = w.gate.fenced
  reader : v.reader = w.reader
  stream : v.stream = w.stream
  journal : v.journal = w.journal
  file : v.journalFile = w.journalFile

theorem emit_published (event : StreamEvent) (w : World S) : PublishOnly w (w.emit event) := by
  unfold World.emit
  split <;> exact ⟨rfl, rfl, rfl, rfl, rfl⟩

theorem commitStatus_published (w : World S) : PublishOnly w w.commitStatus := by
  unfold commitStatus
  split <;> exact ⟨rfl, rfl, rfl, rfl, rfl⟩

theorem Committed.publish {u : World S} (h : Committed w u throughSample segment)
    (hp : PublishOnly u v) : Committed w v throughSample segment := by
  have hfile : v.file = u.file := by
    show v.stream.dir.audio.getD v.reader.file = _
    rw [hp.stream, hp.reader]
    rfl
  refine ⟨hp.gate.trans h.gate, hp.reader.trans h.reader, ?_, ?_, hp.journal.trans h.journal, ?_⟩
  · rw [hp.stream]
    exact h.owner
  · rw [hfile]
    exact h.bytes
  · rw [hp.file]
    exact h.file

/-- What a commit of the worker comes to, from what the journal answers. -/
theorem commit_run (hopen : w.gate.fenced = false) :
    (∀ e v, w.journalCommit throughSample [segment] = (.error e, v) →
      (commit throughSample [segment]).run w = (.error e, v)) ∧
    ∀ v, w.journalCommit throughSample [segment] = (.ok .new, v) →
      (commit throughSample [segment]).run w =
        (.ok (), v.commitStatus.emit (.final segment)) := by
  constructor
  · intro e v h
    refine (run_bind_ok (unlessFenced_run _ hopen)).trans ?_
    exact run_bind_error h
  · intro v h
    have hatomic : (atomic (.commit throughSample [segment])
        (journalCommit throughSample [segment]) : Worker S CommitOutcome).run w =
          (.ok .new, v) := h
    refine (run_bind_ok (unlessFenced_run _ hopen)).trans ?_
    exact run_bind_ok hatomic

theorem cloudFinal_overflow (h : u64Max < segment.endMs * 16) :
    (cloudFinal segment).run w = (.error (failure "provider clock overflow"), w) := by
  have hnone : checkedMul segment.endMs 16 = none := if_neg (by omega)
  unfold cloudFinal
  rw [hnone]
  rfl

section
variable (h : segment.endMs * 16 ≤ u64Max)
include h

/-- The worker's view of a final whose end fits the clock. -/
theorem cloudFinal_run : (cloudFinal segment).run w =
      if w.journal.committed < segment.endMs * 16 then
        ((do
          commit (segment.endMs * 16) [segment]
          update .own confirmedFinal : Worker S Unit)).run w
      else (.ok (), w) := by
  have hsome : checkedMul segment.endMs 16 = some (segment.endMs * 16) :=
    checkedMul_eq_some.mpr ⟨h, rfl⟩
  unfold cloudFinal
  rw [hsome]
  refine (run_bind_ok (run_read _ _ _)).trans ?_
  split <;> rfl

/-- A final that ends within what is covered is left out. -/
theorem cloudFinal_dropped (hcovered : segment.endMs * 16 ≤ w.journal.committed) :
    (cloudFinal segment).run w = (.ok (), w) := by
  rw [cloudFinal_run h, if_neg (by omega)]

theorem cloudFinal_accepted (hopen : w.gate.fenced = false)
    (hsound : Coverage.Sound w.journal) (hstored : Stored w)
    (hafter : w.journal.committed < segment.endMs * 16)
    (hvalid : w.journal.validateCommit w.live (w.ofFinal segment) = .ok ())
    (htakes : Takes w [.committed (w.ofFinal segment)]) :
    ∃ v, (cloudFinal segment).run w = (.ok (), v) ∧
      Committed w v (segment.endMs * 16) segment := by
  obtain ⟨v, hcommit, hcommitted⟩ := journalCommit_new hsound hstored hvalid htakes
  refine ⟨(v.commitStatus.emit (.final segment)).confirmedFinal, ?_, ?_⟩
  · rw [cloudFinal_run h, if_pos hafter]
    exact run_bind_ok ((commit_run hopen).2 v hcommit)
  · have hpublished := (hcommitted.publish (commitStatus_published v)).publish
      (emit_published (.final segment) v.commitStatus)
    exact hpublished.publish ⟨rfl, rfl, rfl, rfl, rfl⟩

end

/-- After a final the source keeps running only if it was left out or its commit was valid. -/
theorem cloudFinal_ok (hopen : w.gate.fenced = false) (hsound : Coverage.Sound w.journal)
    (h : (cloudFinal segment).run w = (.ok (), v)) :
    segment.endMs * 16 ≤ u64Max ∧
      (v = w ∨ w.journal.committed < segment.endMs * 16 ∧
        Valid w.journal w.live (.committed (w.ofFinal segment))) := by
  by_cases hfits : segment.endMs * 16 ≤ u64Max
  · refine ⟨hfits, ?_⟩
    rw [cloudFinal_run hfits] at h
    split at h
    · next hafter =>
      cases hresult : (w.journalCommit (segment.endMs * 16) [segment]).1 with
      | error e =>
        have hrun := (commit_run hopen).1 e _ (Prod.ext hresult rfl)
        cases (run_bind_error hrun).symm.trans h
      | ok outcome => exact .inr ⟨hafter, (journalCommit_valid hsound hresult).2⟩
    · exact .inl (Prod.mk.inj h).2.symm
  · rw [cloudFinal_overflow (by omega)] at h
    cases h

/-- Whatever comes of a final, the journal has at most gained its identifier. -/
theorem cloudFinal_ids (w : World S) (segment : TranscriptSegment)
    (hopen : w.gate.fenced = false) (hsound : Coverage.Sound w.journal) :
    let v := ((cloudFinal segment).run w).2
    (v.gate.fenced = false ∧ Coverage.Sound v.journal) ∧
      v.journal.ids ⊆ w.journal.ids ++ [segment.id] := by
  intro v
  have hsame : v = w → (v.gate.fenced = false ∧ Coverage.Sound v.journal) ∧
      v.journal.ids ⊆ w.journal.ids ++ [segment.id] := by
    intro hv
    rw [hv]
    exact ⟨⟨hopen, hsound⟩, subset_append_left _ _⟩
  by_cases hfits : segment.endMs * 16 ≤ u64Max
  · by_cases hafter : w.journal.committed < segment.endMs * 16
    · obtain ⟨hs, hids⟩ := journalCommit_ids (segment.endMs * 16) segment hsound
      have hv : v = (((do
          commit (segment.endMs * 16) [segment]
          update .own World.confirmedFinal : Worker S Unit)).run w).2 := by
        show ((cloudFinal segment).run w).2 = _
        rw [cloudFinal_run hfits, if_pos hafter]
      cases hresult : (w.journalCommit (segment.endMs * 16) [segment]).1 with
      | error e =>
        have hrun := (commit_run hopen).1 e _ (Prod.ext hresult rfl)
        rw [run_bind_error hrun] at hv
        rw [hv]
        exact ⟨⟨hopen, hs⟩, hids⟩
      | ok outcome =>
        obtain ⟨rfl, -⟩ := journalCommit_valid hsound hresult
        have hrun := (commit_run hopen).2 _ (Prod.ext hresult rfl)
        rw [run_bind_ok hrun] at hv
        have hp := commitStatus_published (w.journalCommit (segment.endMs * 16) [segment]).2
        have hp' := emit_published (.final segment)
          (w.journalCommit (segment.endMs * 16) [segment]).2.commitStatus
        rw [hv]
        refine ⟨⟨(hp'.gate.trans hp.gate).trans hopen, ?_⟩, ?_⟩
        · show Coverage.Sound (World.emit _ _).journal
          rw [hp'.journal, hp.journal]
          exact hs
        · show (World.emit _ _).journal.ids ⊆ _
          rw [hp'.journal, hp.journal]
          exact hids
    · exact hsame (congrArg Prod.snd (cloudFinal_dropped hfits (by omega)))
  · exact hsame (congrArg Prod.snd (cloudFinal_overflow (by omega)))

/-! ## All of them -/

variable {rest : List TranscriptSegment}

theorem hearFinals_cons_ok (h : (cloudFinal segment).run w = (.ok (), v)) :
    (hearFinals (segment :: rest)).run w = (hearFinals rest).run v := run_bind_ok h

/-- The identifiers the journal can have gained are those of the finals. -/
theorem hearFinals_ids (w : World S)
    (hopen : w.gate.fenced = false) (hsound : Coverage.Sound w.journal) :
    Coverage.Sound ((hearFinals finals).run w).2.journal ∧
      ((hearFinals finals).run w).2.journal.ids ⊆ w.journal.ids ++ finals.map (·.id) := by
  induction finals generalizing w with
  | nil => exact ⟨hsound, by simp [hearFinals, forEach]⟩
  | cons segment rest ih =>
    obtain ⟨⟨hopen', hsound'⟩, hids⟩ := cloudFinal_ids w segment hopen hsound
    cases hresult : (cloudFinal segment).run w with
    | mk result v =>
      rw [hresult] at hopen' hsound' hids
      cases result with
      | error e =>
        have hrun : (hearFinals (segment :: rest)).run w = (.error e, v) :=
          run_bind_error hresult
        rw [hrun]
        refine ⟨hsound', fun id hid => ?_⟩
        rcases mem_append.mp (hids hid) with hold | hnew
        · exact mem_append_left _ hold
        · exact mem_append_right _ (mem_singleton.mp hnew ▸ mem_cons_self)
      | ok =>
        rw [hearFinals_cons_ok hresult]
        obtain ⟨hs, hsub⟩ := ih v hopen' hsound'
        refine ⟨hs, fun id hid => ?_⟩
        rcases mem_append.mp (hsub hid) with hold | hnew
        · rcases mem_append.mp (hids hold) with hold | hthis
          · exact mem_append_left _ hold
          · exact mem_append_right _ (mem_singleton.mp hthis ▸ mem_cons_self)
        · exact mem_append_right _ (mem_cons_of_mem _ hnew)

theorem Confirmed.shape {commit : CommittedAudio} (h : Confirmed j segment)
    (hstarts : commit.fromSample / 16 ≤ segment.startMs)
    (hends : segment.endMs ≤ commit.throughSample / 16) :
    SegmentShape j.header j.epoch.engine commit segment :=
  { h with starts := hstarts, ends := hends }

/-- A final in sequence passes the journal's validation. -/
theorem Listening.valid (h : Listening w (segment :: rest))
    (hstarts : w.journal.committed / 16 ≤ segment.startMs)
    (hafter : w.journal.committed < segment.endMs * 16) (hsaved : segment.endMs * 16 ≤ w.saved) :
    w.journal.validateCommit w.live (w.ofFinal segment) = .ok () := by
  have hconfirmed := h.confirmed segment mem_cons_self
  have hends : segment.endMs ≤ segment.endMs * 16 / 16 := by omega
  have hfirst := h.first
  refine validateCommit_eq_ok.mpr ⟨⟨rfl, rfl, hafter, fun _ hr => (nomatch hr), ?_, ?_, ?_⟩,
    (h.stored.probe (segment.endMs * 16)).mpr ⟨by omega, hsaved⟩⟩
  · exact nodup_singleton _
  · intro s hs
    obtain rfl := mem_singleton.mp hs
    exact h.fresh s mem_cons_self
  · intro s hs
    obtain rfl := mem_singleton.mp hs
    exact hconfirmed.shape hstarts hends

theorem recordBytes_cons (codec : Codec Coverage.Entry) (entry : Coverage.Entry)
    (rest : List Coverage.Entry) :
    recordBytes codec (entry :: rest) = ((codec.toVec entry).length + 1) + recordBytes codec rest :=
  rfl

theorem Listening.takes_first (h : Listening w (segment :: rest)) :
    Takes w [.committed (w.ofFinal segment)] := by
  have hroom := h.takes.room
  have hcounted := h.takes.counted
  have hbytes : recordBytes S.codec [.committed (w.ofFinal segment)] =
      (S.codec.toVec (.committed (w.ofFinal segment))).length + 1 := by
    simp [recordBytes]
  change _ + recordBytes _ (.committed (w.ofFinal segment) :: _) ≤ _ at hroom hcounted
  rw [recordBytes_cons] at hroom hcounted
  refine { h.takes with short := ?_, room := ?_, counted := ?_ }
  · intro entry hentry
    obtain rfl := mem_singleton.mp hentry
    exact h.takes.short _ mem_cons_self
  · omega
  · omega

/-- After a committed final the source is listening to the rest. -/
theorem Listening.hear (h : Listening w (segment :: rest))
    (hstarts : w.journal.committed / 16 ≤ segment.startMs)
    (hafter : w.journal.committed < segment.endMs * 16) (hends : segment.endMs * 16 ≤ w.saved) :
    ∃ v, (cloudFinal segment).run w = (.ok (), v) ∧ Committed w v (segment.endMs * 16) segment ∧
      Listening v rest ∧ v.saved = w.saved ∧ v.journal.committed = segment.endMs * 16 := by
  have hvalid := h.valid hstarts hafter hends
  obtain ⟨v, hrun, hv⟩ := cloudFinal_accepted (le_trans hends h.stored.fits) h.unfenced h.sound
    h.stored hafter hvalid h.takes_first
  refine ⟨v, hrun, hv, ?_⟩
  obtain ⟨hstored, hext⟩ := h.stored.same hv.reader hv.bytes (fun writer hw _ => hv.owner ▸ hw)
  have hsaved : v.saved = w.saved := by
    unfold saved
    rw [hv.reader, hv.bytes]
  have hshape := (validateCommit_eq_ok.mp hvalid).1
  have hdistinct := nodup_cons.mp h.distinct
  have hcommitted : v.journal.committed = segment.endMs * 16 := by
    rw [hv.journal]
    rfl
  have hroom := h.takes.room
  have hcounted := h.takes.counted
  change _ + recordBytes _ (.committed (w.handed (segment.endMs * 16) [segment] none) :: _) ≤ _
    at hroom hcounted
  rw [recordBytes_cons] at hroom hcounted
  have hreceipts : receipts v.journal.epoch.number v.journal.committed rest =
      receipts w.journal.epoch.number (segment.endMs * 16) rest := by
    rw [hv.journal]
    rfl
  refine ⟨⟨hv.gate.trans h.unfenced, hstored, ?_, ?_, ?_, hdistinct.2, ?_, ?_⟩, hsaved, hcommitted⟩
  · have hafter : w.journal.committed < segment.endMs * 16 := hshape.grows
    have hfirst := h.first
    rw [hcommitted, hv.reader]
    omega
  · rw [hv.journal]
    exact (h.sound.accept hshape).congr_state _ _ rfl
  · intro s hs
    have hconfirmed := h.confirmed s (mem_cons_of_mem _ hs)
    rw [hv.journal]
    exact { hconfirmed with }
  · intro s hs hmem
    rw [hv.journal] at hmem
    rcases mem_append.mp hmem with hold | hthis
    · exact h.fresh s (mem_cons_of_mem _ hs) hold
    · have hid : s.id = segment.id := mem_singleton.mp hthis
      exact hdistinct.1 (mem_map.mpr ⟨s, hs, hid⟩)
  · rw [hreceipts]
    refine ⟨?_, h.takes.audioSync, h.takes.write, h.takes.sync,
      fun entry hentry => h.takes.short entry (mem_cons_of_mem _ hentry), ?_, ?_⟩
    · rw [hv.journal]
      exact h.takes.healthy
    · rw [hv.file]
      omega
    · rw [hv.journal]
      show w.journal.validBytes + _ + _ ≤ _
      omega

theorem hearFinals_commits (w : World S)
    (h : Listening w finals) (hseq : InSequence w.saved w.journal.committed finals) :
    ((hearFinals finals).run w).1 = .ok () ∧
      w.journal.commits ⊆ ((hearFinals finals).run w).2.journal.commits ∧
      ∀ segment ∈ finals, ∃ commit ∈ ((hearFinals finals).run w).2.journal.commits,
        segment ∈ commit.segments := by
  induction finals generalizing w with
  | nil => exact ⟨rfl, Subset.refl _, fun _ hs => nomatch hs⟩
  | cons segment rest ih =>
    obtain ⟨hstarts, hafter, hends, hrest⟩ := hseq
    obtain ⟨v, hrun, hv, hnext, hsaved, hcommitted⟩ := h.hear hstarts hafter hends
    rw [← hsaved, ← hcommitted] at hrest
    obtain ⟨hok, hkept, hall⟩ := ih v hnext hrest
    have hcommits : v.journal.commits = w.journal.commits ++ [w.ofFinal segment] := by
      rw [hv.journal]
      rfl
    rw [hcommits] at hkept
    rw [hearFinals_cons_ok hrun]
    refine ⟨hok, fun c hc => hkept (mem_append_left _ hc), fun s hs => ?_⟩
    rcases mem_cons.mp hs with rfl | hs
    · exact ⟨_, hkept (mem_append_right _ mem_cons_self), mem_cons_self⟩
    · exact hall s hs

/-- A final of a list that is all heard is in its place. -/
theorem Heard.first_in_place (hl : Listening w (segment :: rest)) (h : Heard w (segment :: rest)) :
    w.journal.committed / 16 ≤ segment.startMs ∧ w.journal.committed < segment.endMs * 16 ∧
      segment.endMs * 16 ≤ w.saved := by
  cases hresult : (cloudFinal segment).run w with
  | mk result v =>
    cases result with
    | error e =>
      have hrun : (hearFinals (segment :: rest)).run w = (.error e, v) :=
        run_bind_error hresult
      have hok := h.running
      rw [hrun] at hok
      cases hok
    | ok =>
      obtain ⟨-, hsame | ⟨hafter, hvalid⟩⟩ := cloudFinal_ok hl.unfenced hl.sound hresult
      · -- it was left out, so its identifier is nowhere in the journal
        subst hsame
        obtain ⟨commit, hcommit, hmem⟩ := h.recorded segment mem_cons_self
        rw [hearFinals_cons_ok hresult] at hcommit
        obtain ⟨hsound, hids⟩ := hearFinals_ids rest v hl.unfenced hl.sound
        have hid : segment.id ∈ ((hearFinals rest).run v).2.journal.ids := by
          rw [hsound.known]
          exact mem_flatMap.mpr ⟨commit, hcommit, mem_map_of_mem hmem⟩
        rcases mem_append.mp (hids hid) with hold | hlater
        · exact (hl.fresh segment mem_cons_self hold).elim
        · exact ((nodup_cons.mp hl.distinct).1 hlater).elim
      · obtain ⟨hshape, hprobe⟩ := hvalid
        exact ⟨(hshape.segments segment mem_cons_self).starts, hafter,
          ((hl.stored.probe _).mp hprobe).2⟩

/-- A source keeps running and keeps every final it is given exactly if each starts where the
    coverage stands or later, ends after it and ends within the saved audio. -/
theorem heard_iff_inSequence {w : World S} {finals : List TranscriptSegment}
    (h : Listening w finals) :
    Heard w finals ↔ InSequence w.saved w.journal.committed finals := by
  constructor
  · intro hheard
    induction finals generalizing w with
    | nil => trivial
    | cons segment rest ih =>
      obtain ⟨hstarts, hafter, hends⟩ := hheard.first_in_place h
      obtain ⟨v, hrun, -, hnext, hsaved, hcommitted⟩ := h.hear hstarts hafter hends
      have hrest : Heard v rest := by
        refine ⟨?_, fun s hs => ?_⟩
        · rw [← hearFinals_cons_ok hrun]
          exact hheard.running
        · rw [← hearFinals_cons_ok hrun]
          exact hheard.recorded s (mem_cons_of_mem _ hs)
      have hseq := ih hnext hrest
      rw [hsaved, hcommitted] at hseq
      exact ⟨hstarts, hafter, hends, hseq⟩
  · intro hseq
    obtain ⟨hok, -, hall⟩ := hearFinals_commits finals w h hseq
    exact ⟨hok, hall⟩

/-! ## Four milliseconds of audio -/

/-- A cloud source over 64 samples. -/
def shortSource : World sampleSetup :=
  sampleWorld sampleSetup sampleHeader (List.replicate 64 0) (some ⟨[], false, true⟩)

theorem shortSource_stored : Stored shortSource ∧ shortSource.saved = 64 := by
  have hlen : shortSource.file.bytes.length = 213 := by decide +kernel
  have hsaved : shortSource.saved = 64 := by
    unfold saved
    rw [hlen]
    rfl
  refine ⟨⟨?_, ?_, ?_⟩, hsaved⟩
  · rw [hlen]
    decide
  · rw [hsaved]
    decide
  · intro writer hwriter _
    cases hwriter
    rw [hsaved, hlen]
    exact ⟨rfl, rfl⟩

/-- A second final, after the first two milliseconds or in them. -/
def second (startMs endMs : ℕ) : TranscriptSegment :=
  { sampleSegment with id := "b", text := "there", startMs, endMs }

/-- Two finals of two milliseconds each are heard. -/
theorem heard_two_finals : InSequence 64 0 [sampleSegment, second 2 4] ∧
    Heard shortSource [sampleSegment, second 2 4] := by
  have hseq : InSequence 64 0 [sampleSegment, second 2 4] := by decide
  obtain ⟨hstored, hsaved⟩ := shortSource_stored
  have hlistening : Listening shortSource [sampleSegment, second 2 4] := by
    have hbytes : shortSource.journalFile.bytes.length + recordBytes sampleSetup.codec
        (receipts shortSource.journal.epoch.number shortSource.journal.committed
          [sampleSegment, second 2 4]) ≤ 1000 := by
      decide +kernel
    have hcounted : shortSource.journal.validBytes + recordBytes sampleSetup.codec
        (receipts shortSource.journal.epoch.number shortSource.journal.committed
          [sampleSegment, second 2 4]) ≤ 1000 := by
      decide +kernel
    have hfile : 1000 ≤ maxFileBytes := by decide
    have hclock : 1000 ≤ u64Max := by decide
    refine ⟨rfl, hstored, le_refl 0, Coverage.Sound.fromHeader sampleHeader, ?_,
      by decide, fun _ _ h => (nomatch h), rfl, fun _ => rfl, fun _ => rfl,
      fun _ => rfl, ?_, le_trans hbytes hfile, le_trans hcounted hclock⟩
    · rw [forall_mem_cons, forall_mem_singleton]
      exact ⟨⟨by decide, rfl, rfl, rfl, rfl, rfl, by decide, rfl, rfl⟩,
        by decide, rfl, rfl, rfl, rfl, rfl, by decide, rfl, rfl⟩
    · decide +kernel
  refine ⟨hseq, (heard_iff_inSequence hlistening).mpr ?_⟩
  rw [hsaved]
  exact hseq

/-- The second final ends where the first did: it is left out, with its audio covered. -/
theorem final_lost : (((hearFinals [sampleSegment, second 1 2]).run shortSource).1 = .ok () ∧
      ((hearFinals [sampleSegment, second 1 2]).run shortSource).2.journal.committed = 32 ∧
      ((hearFinals [sampleSegment, second 1 2]).run shortSource).2.journal.commits.map
        (·.segments) = [[sampleSegment]]) ∧
    -- it ends later: the source dies
    ((hearFinals [sampleSegment, second 1 3]).run shortSource).1 =
      .error (failure "segment identity or interval does not match its coverage") := by
  refine ⟨⟨?_, ?_, ?_⟩, ?_⟩ <;> decide +kernel

end FlyOnTheWall.Stream
