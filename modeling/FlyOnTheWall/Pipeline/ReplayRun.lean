/-
  Runs of a canonical replay stream: owners that create, resume, append and seal one after
  another, and readers that mark it complete or projected at any time.

  * `Grows`: what any step does to the audio. The header stays, and complete samples are
    only ever added.
  * `Frozen`: what a successful seal establishes and every later step keeps.
  * `run_proofs`: what the reports `complete` and `projected` mean in every state of every
    run, that no proof outlives an append, and that a sealed stream takes no more samples.
-/
import FlyOnTheWall.Pipeline.Replay

namespace FlyOnTheWall.Replay

open Lib List Option Stream Reader

/-! ## Events -/

inductive Event
  | create (io : CreateIo) (sessionId : String) (firstSample : ℕ)
  | createWithProcessing (io : CreateIo) (sessionId : String) (firstSample : ℕ)
      (processingId : String)
  | resume (io : ResumeIo) (sessionId : String) (validate : Reader → Except IoError Unit)
  | resumeCut (io : ResumeIo) (sessionId : String) (validate : Reader → Except IoError Unit)
  | append (io : AppendIo) (pcm : List (BitVec 16))
  | sync (synced : Bool)
  | sealStream (io : MarkIo)
  | release
  | markComplete (io : MarkIo) (sessionId : String) (throughSample : ℕ)
  | markProjected (io : MarkIo) (sessionId : String) (throughSample journalBytes : ℕ)
  | journal (length : Option ℕ)

variable (json : Json) (source : ReplaySource) (s : Stream)

def step : Event → Stream
  | .create io sessionId firstSample => (s.create json io sessionId source firstSample).2
  | .createWithProcessing io sessionId firstSample processingId =>
    (s.createWithProcessing json io sessionId source firstSample processingId).2
  | .resume io sessionId validate => (s.resumeValidated json io sessionId source validate).2
  | .resumeCut io sessionId validate =>
    (s.resumePrefixValidated json io sessionId source validate).2
  | .append io pcm => (s.append io pcm).2
  | .sync synced =>
    match s.owner with
    | some w => (s.syncAs w synced).2
    | none => s
  | .sealStream io => (s.sealStream json io source).2
  | .release => { s with owner := none }
  | .markComplete io sessionId throughSample =>
    { s with dir := (s.dir.markComplete json io sessionId source throughSample).2 }
  | .markProjected io sessionId throughSample journalBytes =>
    { s with dir :=
      (s.dir.markProjected json io sessionId source throughSample journalBytes).2 }
  | .journal length => { s with dir := { s.dir with journal := length } }

def run (events : List Event) : Stream :=
  events.foldl (step json source) s

/-! ## Reading the header -/

/-- The header's length as the file gives it. -/
def headerLength (bytes : List UInt8) : ℕ := leNat ((bytes.drop 8).take 4)

/-- What a successful open has read. -/
structure Opened (codec : Codec Header) (file : DurableFile) (r : Reader) : Prop where
  file_eq : r.file = file
  offset : r.audioOffset = 12 + headerLength file.bytes
  inside : r.audioOffset ≤ file.bytes.length
  header : codec.fromSlice ((file.bytes.drop 12).take (headerLength file.bytes)) = some r.header

variable {codec : Codec Header} {file file' : DurableFile} {sessionId : String} {r : Reader}
  {source : ReplaySource}

/-- Exactly which files open, and as what. -/
theorem fromFile_eq_ok : fromFile codec file sessionId source = .ok r ↔
      file.bytes.take 8 = magic ∧ headerLength file.bytes ≠ 0 ∧
        headerLength file.bytes ≤ maxHeaderBytes ∧ Opened codec file r ∧
        r.header.sessionId = sessionId ∧ r.header.source = source ∧
        r.header.sampleRate = streamRate ∧
        r.header.processingId.any (!validProcessingId ·) = false := by
  simp only [fromFile, bind_eq_ok, refuseIf_eq_ok, okOr_eq_ok, Bool.or_eq_false_iff,
    bne_eq_false_iff_eq, beq_eq_false_iff_ne, decide_eq_false_iff_not, gt_iff_lt, Nat.not_lt]
  constructor
  · rintro ⟨_, -, _, hmagic, _, -, _, ⟨hpos, hmax⟩, _, hinside, header, hheader, _,
      ⟨⟨⟨hsession, hsource⟩, hrate⟩, hid⟩, h⟩
    cases h
    exact ⟨hmagic, hpos, hmax, ⟨rfl, rfl, hinside, hheader⟩, hsession, hsource, hrate, hid⟩
  · obtain ⟨header, offset, contents⟩ := r
    rintro ⟨hmagic, hpos, hmax, ⟨hfile, hoffset, hinside, hheader⟩, hsession, hsource, hrate, hid⟩
    obtain rfl : contents = file := hfile
    obtain rfl : offset = 12 + headerLength contents.bytes := hoffset
    dsimp only at hinside
    exact ⟨(), by omega, (), hmagic, (), by omega, (), ⟨hpos, hmax⟩, (), hinside, header, hheader,
      (), ⟨⟨⟨hsession, hsource⟩, hrate⟩, hid⟩, rfl⟩

theorem fromFile_opened (h : fromFile codec file sessionId source = .ok r) :
    Opened codec file r ∧ r.header.sessionId = sessionId ∧ r.header.source = source := by
  obtain ⟨-, -, -, hopened, hsession, hsource, -⟩ := fromFile_eq_ok.mp h
  exact ⟨hopened, hsession, hsource⟩

variable {dir : Dir} {json : Json}

theorem openReader_eq_ok (h : openReader json dir sessionId source = .ok r) :
    dir.audio = some r.file ∧ Opened json.header r.file r ∧
      r.header.sessionId = sessionId ∧ r.header.source = source := by
  obtain ⟨file, hfile, h⟩ := bind_eq_ok.mp h
  have hopened := fromFile_opened h
  have heq := hopened.1.file_eq
  subst heq
  exact ⟨okOr_eq_ok.mp hfile, hopened⟩

/-- What is read on opening is the header: a file that starts with it opens the same way. -/
theorem fromFile_of_header (h : fromFile codec file sessionId source = .ok r)
    (hext : file.bytes.take r.audioOffset <+: file'.bytes) :
    fromFile codec file' sessionId source = .ok { r with file := file' } := by
  obtain ⟨hmagic, hpos, hmax, ⟨-, hoffset, hinside, hheader⟩, hrest⟩ := fromFile_eq_ok.mp h
  obtain ⟨part, hpart⟩ := hext
  have hlen : (file.bytes.take r.audioOffset).length = r.audioOffset := by
    rw [length_take, Nat.min_eq_left hinside]
  have hsame : ∀ k m, k + m ≤ r.audioOffset →
      (file'.bytes.drop k).take m = (file.bytes.drop k).take m := by
    intro k m hk
    rw [← hpart, drop_append_of_le_length (by omega),
      take_append_of_le_length (by rw [length_drop]; omega), drop_take,
      take_take, Nat.min_eq_left (by omega)]
  have hcount : headerLength file'.bytes = headerLength file.bytes :=
    congrArg leNat (hsame 8 4 (by omega))
  refine fromFile_eq_ok.mpr ⟨(hsame 0 8 (by omega)).trans hmagic, by rwa [hcount], by rwa [hcount],
    ⟨rfl, by rwa [hcount], ?_, ?_⟩, hrest⟩
  · rw [← hpart, length_append, hlen]
    exact Nat.le_add_right _ _
  · rw [hcount, hsame 12 _ (by omega)]
    exact hheader

theorem fromFile_extends (h : fromFile codec file sessionId source = .ok r)
    (hext : file.bytes <+: file'.bytes) :
    fromFile codec file' sessionId source = .ok { r with file := file' } :=
  fromFile_of_header h ((List.take_prefix _ _).trans hext)

variable {dir' : Dir}

theorem openReader_extends (h : openReader json dir sessionId source = .ok r)
    (haudio : dir'.audio = some file') (hext : r.file.bytes <+: file'.bytes) :
    openReader json dir' sessionId source = .ok { r with file := file' } := by
  have haudio' := (openReader_eq_ok h).1
  obtain ⟨file, hfile, h⟩ := bind_eq_ok.mp h
  obtain rfl : r.file = file := some.inj (haudio'.symm.trans (okOr_eq_ok.mp hfile))
  exact bind_eq_ok.mpr ⟨file', okOr_eq_ok.mpr haudio, fromFile_extends h hext⟩

/-- The seal is read from the mark, the header and the length of the audio. -/
theorem sealedEnd_congr (hmark : dir'.sealedMark = dir.sealedMark)
    (hbytes : file.bytes = r.file.bytes) :
    { r with file }.sealedEnd json dir' = r.sealedEnd json dir := by
  have haudio : { r with file := file }.audioBytes = r.audioBytes := by
    unfold audioBytes
    rw [hbytes]
  have hlast : { r with file := file }.availableEnd = r.availableEnd := by
    unfold availableEnd
    rw [haudio]
    rfl
  have hmatch : { r with file := file }.matchesBoundary = r.matchesBoundary := by
    unfold matchesBoundary aligned
    rw [haudio, hlast]
    rfl
  unfold sealedEnd
  rw [hmark, hmatch]

/-! ## The audio only grows -/

/-- Complete samples in a file whose audio starts at `offset`. -/
def sampleCount (offset : ℕ) (file : DurableFile) : ℕ := (file.bytes.length - offset) / 2

/-- The header stays and no complete sample is lost. -/
structure Grows (file file' : DurableFile) : Prop where
  header : 12 + headerLength file.bytes ≤ file.bytes.length →
    12 + headerLength file.bytes ≤ file'.bytes.length ∧
      file'.bytes.take (12 + headerLength file.bytes) =
        file.bytes.take (12 + headerLength file.bytes)
  samples : 12 + headerLength file.bytes ≤ file.bytes.length →
    sampleCount (12 + headerLength file.bytes) file ≤
      sampleCount (12 + headerLength file.bytes) file'

theorem headerLength_take (bytes : List UInt8) {n : ℕ} (h : 12 ≤ n) :
    headerLength (bytes.take n) = headerLength bytes := by
  unfold headerLength
  rw [drop_take, take_take, Nat.min_eq_left (by omega)]

theorem Grows.headerLength_eq (h : Grows file file')
    (hinside : 12 + headerLength file.bytes ≤ file.bytes.length) :
    headerLength file'.bytes = headerLength file.bytes := by
  have htake := congrArg headerLength (h.header hinside).2
  rwa [headerLength_take _ (by omega), headerLength_take _ (by omega)] at htake

theorem Grows.of_bytes (h : file'.bytes = file.bytes) : Grows file file' := by
  refine ⟨fun hinside => ?_, fun hinside => ?_⟩
  · rw [h]
    exact ⟨hinside, rfl⟩
  · unfold sampleCount
    exact Nat.le_of_eq (by rw [h])

theorem Grows.of_append {part : List UInt8} (h : file'.bytes = file.bytes ++ part) :
    Grows file file' := by
  refine ⟨fun hinside => ?_, fun hinside => ?_⟩
  · rw [h, length_append, take_append_of_le_length hinside]
    exact ⟨by omega, rfl⟩
  · unfold sampleCount
    rw [h, length_append]
    omega

theorem Grows.of_truncate (hodd : (file.bytes.length - (12 + headerLength file.bytes)) % 2 = 1) :
    Grows file (file.truncate (file.bytes.length - 1)) := by
  refine ⟨fun hinside => ?_, fun hinside => ?_⟩
  · rw [DurableFile.truncate_bytes, take_take, Nat.min_eq_left (by omega), length_take]
    exact ⟨by omega, rfl⟩
  · unfold sampleCount
    rw [DurableFile.truncate_bytes, length_take]
    omega

theorem Grows.trans {a b c : DurableFile} (hab : Grows a b) (hbc : Grows b c) : Grows a c := by
  refine ⟨fun hinside => ?_, fun hinside => ?_⟩
  · have hlen := hab.headerLength_eq hinside
    obtain ⟨hb, htake⟩ := hab.header hinside
    obtain ⟨hc, htake'⟩ := hbc.header (by rw [hlen]; exact hb)
    rw [hlen] at hc htake'
    exact ⟨hc, htake'.trans htake⟩
  · have hlen := hab.headerLength_eq hinside
    have hb := hbc.samples (by rw [hlen]; exact (hab.header hinside).1)
    rw [hlen] at hb
    exact Nat.le_trans (hab.samples hinside) hb

/-- Two readers of a stream at two times read the same header. -/
theorem Grows.header_eq {r' : Reader} (h : Grows file file') (hr : Opened codec file r)
    (hr' : Opened codec file' r') : r'.header = r.header ∧ r'.audioOffset = r.audioOffset := by
  have hinside : 12 + headerLength file.bytes ≤ file.bytes.length := hr.offset ▸ hr.inside
  have hlen := h.headerLength_eq hinside
  refine ⟨?_, by rw [hr'.offset, hr.offset, hlen]⟩
  have hslice : (file'.bytes.drop 12).take (headerLength file.bytes) =
      (file.bytes.drop 12).take (headerLength file.bytes) := by
    have htake := congrArg (drop 12) (h.header hinside).2
    rwa [drop_take, drop_take, Nat.add_sub_cancel_left] at htake
  have hheader := hr'.header
  rw [hlen, hslice, hr.header] at hheader
  exact (some.inj hheader).symm

theorem boundary_bytes (r : Reader) (n : ℕ) (synced : Bool) :
    (r.boundary n synced).2.file.bytes = r.file.bytes := by
  unfold boundary
  split
  · rfl
  have hsync : ∀ result r', r.syncThrough n synced = (result, r') →
      r'.file.bytes = r.file.bytes := by
    intro result r' h
    unfold syncThrough at h
    split at h
    · cases h
      rfl
    · split at h
      · cases h
        rfl
      · split at h <;> cases h <;> rfl
  split <;> exact hsync _ _ ‹_›

section Steps

variable {json : Json} {source : ReplaySource}

/-- The audio is there, and it is what it was or has grown. -/
def Keeps (file : DurableFile) (dir : Dir) : Prop :=
  ∃ file', dir.audio = some file' ∧ Grows file file'

theorem Keeps.same (h : dir.audio = some file) : Keeps file dir := ⟨file, h, .of_bytes rfl⟩

variable {n : ℕ}

theorem leNat_le32 (h : n < 2 ^ 32) : leNat (le32 n) = n := by
  simp only [leNat, le32, foldr_cons, foldr_nil, UInt8.toNat_ofNat']
  omega

/-- A new stream: the magic number, the length of the header and the header. -/
def newStream (json : Json) (header : Header) : List UInt8 :=
  magic ++ le32 (json.header.toVec header).length ++ json.header.toVec header

variable {header : Header}

section
variable (h : (json.header.toVec header).length ≤ maxHeaderBytes)
include h

theorem headerLength_newStream :
    headerLength (newStream json header) = (json.header.toVec header).length := by
  unfold newStream
  generalize json.header.toVec header = head at h
  exact leNat_le32 (by unfold maxHeaderBytes at h; omega)

theorem newStream_length :
    (newStream json header).length = 12 + headerLength (newStream json header) := by
  rw [headerLength_newStream h, newStream]
  simp [magic, le32]
  omega

end

variable {s : Stream} {first : ℕ} {processingId : Option String}

/-- A stream that was just created has a header and no audio, and an owner at its start. -/
theorem createInner_ok {io : CreateIo} {t : Stream}
    (h : s.createInner json io sessionId source first processingId = (.ok (), t)) :
    (json.header.toVec ⟨sessionId, source, streamRate, first, processingId⟩).length ≤
        maxHeaderBytes ∧
      ∃ file, t = ⟨{ s.dir with audio := some file },
        some ⟨sessionId, first, false, false, false⟩⟩ ∧
        file.bytes = newStream json ⟨sessionId, source, streamRate, first, processingId⟩ := by
  unfold createInner at h
  dsimp only at h
  split at h
  · cases h
  rename_i hchecks
  obtain ⟨_, hchecks⟩ := bind_rest hchecks
  obtain ⟨_, hsize, -⟩ := bind_eq_ok.mp hchecks
  have hsize := of_decide_eq_false (refuseIf_eq_ok.mp hsize)
  split at h
  · next hdone =>
    cases h
    simp only [Bool.and_eq_true] at hdone
    have hbytes := (DurableFile.writeAll_complete hdone.1.1).1
    refine ⟨Nat.le_of_not_lt hsize, _, rfl, ?_⟩
    rw [DurableFile.sync_bytes, hbytes]
    rfl
  · cases h

theorem createInner_keeps {io : CreateIo} (hfile : s.dir.audio = some file) :
    (s.createInner json io sessionId source first processingId).2 = s := by
  unfold createInner
  dsimp only
  split
  · rfl
  · next hready =>
    obtain ⟨_, _, hready⟩ := bind_rest2 hready
    obtain ⟨_, hready⟩ := bind_rest hready
    have hexists := refuseIf_eq_ok.mp hready
    rw [hfile] at hexists
    cases hexists

/-- What a call does to a stream that has audio: the audio stays or grows, a seal stays, and the
    owner of a sealed stream knows of the seal as well as the owner before the call. -/
structure Effect (file : DurableFile) (s t : Stream) : Prop where
  keeps : Keeps file t.dir
  mark : s.dir.sealedMark.isSome → t.dir.sealedMark.isSome
  owner : s.dir.sealedMark.isSome → ∀ w, t.owner = some w → (w.isSealed || w.prefixOnly) = true ∨
    ∃ w', s.owner = some w' ∧ (w'.isSealed || w'.prefixOnly) = (w.isSealed || w.prefixOnly)

theorem Effect.of_dir (hkeeps : Keeps file dir)
    (hmark : s.dir.sealedMark.isSome → dir.sealedMark.isSome) :
    Effect file s { s with dir } := ⟨hkeeps, hmark, fun _ w hw => .inr ⟨w, hw, rfl⟩⟩

theorem Effect.same (hfile : s.dir.audio = some file) : Effect file s s := .of_dir (.same hfile) id

theorem sealedEnd_isSome {last : Option ℕ}
    (hmark : dir.sealedMark.isSome) (h : r.sealedEnd json dir = .ok last) : last.isSome := by
  obtain ⟨bytes, hbytes⟩ := isSome_iff_exists.mp hmark
  obtain ⟨read, hread, h⟩ := bind_eq_ok.mp h
  cases read with
  | none =>
    rw [hbytes] at hread
    obtain ⟨read, hread, hnone⟩ := bind_eq_ok.mp hread
    obtain ⟨_, hread⟩ := bind_rest hread
    obtain ⟨b, -, hread⟩ := bind_eq_ok.mp hread
    cases hread
    obtain ⟨_, hnone⟩ := bind_rest hnone
    cases hnone
  | some b =>
    obtain ⟨matched, -, h⟩ := bind_eq_ok.mp h
    split at h
    · cases h
      rfl
    · cases h

variable {validate : Reader → Except IoError Unit}

theorem resumeValidated_effect {io : ResumeIo} (hfile : s.dir.audio = some file) :
    Effect file s (s.resumeValidated json io sessionId source validate).2 := by
  unfold resumeValidated
  split
  · exact .same hfile
  rename_i r isSealed audioBytes last hready
  obtain ⟨_, hready⟩ := bind_rest hready
  obtain ⟨r', hopen, hready⟩ := bind_eq_ok.mp hready
  obtain ⟨_, hready⟩ := bind_rest hready
  obtain ⟨sealedAt, hsealedAt, hready⟩ := bind_eq_ok.mp hready
  obtain ⟨n, hbytes, hready⟩ := bind_eq_ok.mp hready
  obtain ⟨_, hready⟩ := bind_rest hready
  cases hready
  obtain ⟨haudio, hopened, -⟩ := openReader_eq_ok hopen
  obtain rfl : file = r.file := mem_unique hfile haudio
  obtain ⟨hle, rfl⟩ := checkedSub_eq_some.mp (okOr_eq_ok.mp hbytes)
  have hknows : s.dir.sealedMark.isSome → (sealedAt.isSome || false) = true := fun hmark => by
    rw [sealedEnd_isSome hmark hsealedAt]
    rfl
  split
  · next hodd =>
    have hodd : (r.file.bytes.length - (12 + headerLength r.file.bytes)) % 2 = 1 := by
      rw [← hopened.offset]
      simpa using hodd
    split
    · exact .same hfile
    · split
      · exact .of_dir ⟨_, rfl, .of_truncate hodd⟩ id
      · refine ⟨⟨_, rfl, (Grows.of_truncate hodd).trans (.of_bytes rfl)⟩, id, fun hmark w hw => ?_⟩
        cases hw
        exact .inl (hknows hmark)
  · refine ⟨.same hfile, id, fun hmark w hw => ?_⟩
    cases hw
    exact .inl (hknows hmark)

theorem resumePrefixValidated_effect {io : ResumeIo} (hfile : s.dir.audio = some file) :
    Effect file s (s.resumePrefixValidated json io sessionId source validate).2 := by
  unfold resumePrefixValidated
  split
  · exact .same hfile
  rename_i r isSealed last hready
  obtain ⟨_, hready⟩ := bind_rest hready
  obtain ⟨r', hopen, hready⟩ := bind_eq_ok.mp hready
  obtain ⟨_, _, hready⟩ := bind_rest2 hready
  obtain ⟨_, _, hready⟩ := bind_rest2 hready
  cases hready
  obtain ⟨haudio, -⟩ := openReader_eq_ok hopen
  obtain rfl : file = r.file := mem_unique hfile haudio
  refine ⟨⟨_, rfl, .of_bytes rfl⟩, id, fun _ w hw => ?_⟩
  cases hw
  exact .inl (Bool.or_true _)

/-- The audio of a directory that some call has left behind has the bytes it had. -/
def SameAudio (dir dir' : Dir) : Prop := dir'.audio.map (·.bytes) = dir.audio.map (·.bytes)

theorem SameAudio.boundary {r' : Reader} {synced : Bool} {result : Except IoError Completion}
    (hopen : openReader json dir sessionId source = .ok r)
    (hr' : r.boundary n synced = (result, r')) :
    SameAudio dir { dir with audio := some r'.file } := by
  have hbytes := boundary_bytes r n synced
  rw [hr'] at hbytes
  rw [SameAudio, (openReader_eq_ok hopen).1]
  exact congrArg some hbytes

theorem SameAudio.keeps (h : SameAudio dir dir') (hfile : dir.audio = some file) :
    Keeps file dir' := by
  rw [SameAudio, hfile] at h
  obtain ⟨file', hfile', hbytes⟩ := map_eq_some_iff.mp h
  exact ⟨file', hfile', .of_bytes hbytes⟩

theorem SameAudio.getD_bytes (h : SameAudio dir dir') (file : DurableFile) :
    (dir'.audio.getD file).bytes = (dir.audio.getD file).bytes := by
  have hsame := congrArg (·.getD file.bytes) h
  rwa [Option.getD_map, Option.getD_map] at hsame

theorem removeProof_ok {io : RemoveIo} {old new : Option (List UInt8)}
    (h : removeProof io old = (.ok (), new)) : new = none := by
  unfold removeProof at h
  split at h
  · cases h
    rfl
  · split at h <;> cases h
    rfl

/-- An owner whose appends are not refused. -/
structure CanAppend (w : Writer) : Prop where
  healthy : w.failed = false
  unsealed : w.isSealed = false
  whole : w.prefixOnly = false

/-- What an append can come to. -/
inductive Appended (io : AppendIo) (s : Stream) (w : Writer) (file : DurableFile)
    (pcm : List (BitVec 16)) : Except IoError Unit × Stream → Prop
  | refused (e : IoError) : Appended io s w file pcm (.error e, s)
  | nothing (hcan : CanAppend w) (hpcm : pcm = []) : Appended io s w file pcm (.ok (), s)
  | stuck (hcan : CanAppend w) (e : IoError) (completion projected : Option (List UInt8)) :
    Appended io s w file pcm
      (.error e, ⟨{ s.dir with completion, projected }, some { w with failed := true }⟩)
  | torn (hcan : CanAppend w) (hroom : w.endSample + pcm.length ≤ u64Max) :
    Appended io s w file pcm (.error .other, ⟨{ s.dir with
      completion := none, projected := none,
        audio := some (file.writeAll (encodePcm pcm) io.write).1 },
      some { w with failed := true }⟩)
  | written (hcan : CanAppend w) (hroom : w.endSample + pcm.length ≤ u64Max)
      (hdone : (file.writeAll (encodePcm pcm) io.write).2 = true) :
    Appended io s w file pcm (.ok (), ⟨{ s.dir with
      completion := none, projected := none,
        audio := some (file.writeAll (encodePcm pcm) io.write).1 },
      some { w with endSample := w.endSample + pcm.length }⟩)

theorem appendAs_cases (io : AppendIo) (s : Stream) (w : Writer) (file : DurableFile)
    (pcm : List (BitVec 16)) : Appended io s w file pcm (s.appendAs io w file pcm) := by
  unfold appendAs
  split
  · exact .refused _
  rename_i hready
  obtain ⟨hhealthy, hunsealed⟩ := refuseIf_bind_ok.mp hready
  rw [refuseIf_eq_ok, Bool.or_eq_false_iff] at hunsealed
  have hcan : CanAppend w := ⟨hhealthy, hunsealed.1, hunsealed.2⟩
  split
  · exact .nothing hcan (isEmpty_iff.mp ‹_›)
  split
  · exact .refused _
  rename_i next hnext
  obtain ⟨hroom, rfl⟩ := checkedAdd_eq_some.mp hnext
  split
  · exact .stuck hcan _ _ s.dir.projected
  rename_i completion hcompletion
  obtain rfl := removeProof_ok hcompletion
  split
  · exact .stuck hcan _ _ _
  rename_i projected hprojected
  obtain rfl := removeProof_ok hprojected
  dsimp only
  split
  · exact .written hcan hroom ‹_›
  · exact .torn hcan hroom

theorem append_cases (io : AppendIo) (s : Stream) (pcm : List (BitVec 16)) :
    s.append io pcm = (none, s) ∨ ∃ w file r, s.owner = some w ∧ s.dir.audio = some file ∧
      Appended io s w file pcm r ∧ s.append io pcm = (some r.1, r.2) := by
  unfold append
  split
  · exact .inr ⟨_, _, _, ‹_›, ‹_›, appendAs_cases .., rfl⟩
  · exact .inl rfl

theorem Appended.effect {io : AppendIo} {w : Writer} {pcm : List (BitVec 16)}
    {r : Except IoError Unit × Stream} (h : Appended io s w file pcm r)
    (hfile : s.dir.audio = some file) (howner : s.owner = some w) : Effect file s r.2 := by
  have hwritten : Grows file (file.writeAll (encodePcm pcm) io.write).1 := by
    obtain ⟨part, -, hbytes, -⟩ := file.writeAll_bytes (encodePcm pcm) io.write
    exact .of_append hbytes
  -- whatever the call does, its owner keeps both flags
  cases h with
  | refused | nothing => exact .same hfile
  | stuck => exact ⟨.same hfile, id, fun _ _ hw => .inr ⟨w, howner, by cases hw; rfl⟩⟩
  | torn | written =>
    exact ⟨⟨_, rfl, hwritten⟩, id, fun _ _ hw => .inr ⟨w, howner, by cases hw; rfl⟩⟩

variable {io : MarkIo}

theorem markComplete_audio : SameAudio dir (dir.markComplete json io sessionId source n).2 ∧
    (dir.markComplete json io sessionId source n).2.sealedMark = dir.sealedMark := by
  unfold Dir.markComplete
  split
  · exact ⟨rfl, rfl⟩
  · next r hready =>
    obtain ⟨r', hopen, hready⟩ := bind_eq_ok.mp hready
    obtain ⟨_, hready⟩ := bind_rest hready
    cases hready
    split <;> exact ⟨.boundary hopen ‹_›, rfl⟩

theorem markProjected_audio {bytes : ℕ} :
    SameAudio dir (dir.markProjected json io sessionId source n bytes).2 ∧
      (dir.markProjected json io sessionId source n bytes).2.sealedMark = dir.sealedMark := by
  unfold Dir.markProjected
  split
  · exact ⟨rfl, rfl⟩
  rename_i r hready
  obtain ⟨r', hopen, hready⟩ := bind_eq_ok.mp hready
  obtain ⟨_, _, hready⟩ := bind_rest2 hready
  obtain ⟨_, _, hready⟩ := bind_rest2 hready
  obtain ⟨_, hready⟩ := bind_rest hready
  cases hready
  split <;> exact ⟨.boundary hopen ‹_›, rfl⟩

/-- What a seal can come to. -/
inductive Sealed (s : Stream) (w : Writer) : Except IoError Unit × Stream → Prop
  | stopped (e : IoError) {dir : Dir} (haudio : SameAudio s.dir dir)
      (hmark : s.dir.sealedMark.isSome → dir.sealedMark.isSome) :
    Sealed s w (.error e, { s with dir })
  | done {dir : Dir} (haudio : SameAudio s.dir dir) (hfile : dir.audio.isSome)
      (hmark : dir.sealedMark.isSome) : Sealed s w (.ok (), ⟨dir, some { w with isSealed := true }⟩)

theorem sealAs_cases (w : Writer) : Sealed s w (s.sealAs json io w source) := by
  unfold sealAs
  split
  · exact .stopped _ rfl id
  rename_i r hready
  obtain ⟨_, _, hready⟩ := bind_rest2 hready
  obtain ⟨r', hopen, hready⟩ := bind_eq_ok.mp hready
  obtain ⟨_, hready⟩ := bind_rest hready
  cases hready
  split
  · exact .stopped _ (.boundary hopen ‹_›) id
  · have haudio := SameAudio.boundary hopen ‹_›
    cases io.marker with
    | failed => exact .stopped _ haudio id
    | unsynced => exact .stopped _ haudio fun _ => rfl
    | done => exact .done haudio rfl rfl

theorem sealStream_cases (json : Json) (io : MarkIo) (s : Stream) (source : ReplaySource) :
    s.sealStream json io source = (none, s) ∨ ∃ w r, s.owner = some w ∧ Sealed s w r ∧
      s.sealStream json io source = (some r.1, r.2) := by
  unfold sealStream
  split
  · exact .inr ⟨_, _, ‹_›, sealAs_cases _, rfl⟩
  · exact .inl rfl

section
variable (hfile : s.dir.audio = some file)
include hfile

theorem step_effect (event : Event) : Effect file s (step json source s event) := by
  cases event with
  | create io sessionId first =>
    show Effect file s (s.createInner json io sessionId source first none).2
    rw [createInner_keeps hfile]
    exact .same hfile
  | createWithProcessing io sessionId first processingId =>
    show Effect file s (s.createWithProcessing json io sessionId source first processingId).2
    unfold createWithProcessing
    split
    · exact .same hfile
    · rw [createInner_keeps hfile]
      exact .same hfile
  | resume io sessionId validate => exact resumeValidated_effect hfile
  | resumeCut io sessionId validate => exact resumePrefixValidated_effect hfile
  | append io pcm =>
    show Effect file s (s.append io pcm).2
    rcases append_cases io s pcm with heq | ⟨w, file', r, howner, hfile', happended, heq⟩
    · rw [heq]
      exact .same hfile
    · obtain rfl := mem_unique hfile hfile'
      rw [heq]
      exact happended.effect hfile howner
  | sync synced =>
    show Effect file s (match s.owner with
      | some w => (s.syncAs w synced).2
      | none => s)
    split
    · next w howner =>
      unfold syncAs
      split
      · exact .same hfile
      · split
        · exact .of_dir ⟨file.sync, by rw [hfile]; rfl, .of_bytes rfl⟩ id
        · refine ⟨.same hfile, id, fun _ w' hw => .inr ⟨w, howner, ?_⟩⟩
          cases hw
          rfl
    · exact .same hfile
  | sealStream io =>
    show Effect file s (s.sealStream json io source).2
    rcases sealStream_cases json io s source with heq | ⟨w, r, -, hsealed, heq⟩
    · rw [heq]
      exact .same hfile
    · rw [heq]
      cases hsealed with
      | stopped _ haudio hmark => exact .of_dir (haudio.keeps hfile) hmark
      | done haudio _ hmark =>
        exact ⟨haudio.keeps hfile, fun _ => hmark, fun _ _ hw => .inl (by cases hw; rfl)⟩
  | release => exact ⟨.same hfile, id, nofun⟩
  | markComplete io sessionId n =>
    obtain ⟨haudio, hmark⟩ := markComplete_audio
    exact .of_dir (haudio.keeps hfile) (hmark ▸ id)
  | markProjected io sessionId n bytes =>
    obtain ⟨haudio, hmark⟩ := markProjected_audio
    exact .of_dir (haudio.keeps hfile) (hmark ▸ id)
  | journal length => exact .of_dir (.same hfile) id

theorem run_keeps (events : List Event) : Keeps file (run json source s events).dir := by
  refine foldlRecOn (motive := fun t => Keeps file t.dir) events (step json source)
    (.same hfile) ?_
  rintro t ⟨file', hfile', hgrows⟩ event -
  obtain ⟨file'', hfile'', hgrows'⟩ : Keeps file' (step json source t event).dir :=
    (step_effect hfile' event).keeps
  exact ⟨file'', hfile'', hgrows.trans hgrows'⟩

end

end Steps

/-! ## What the reports mean -/

section Reports

variable {json : Json} {source : ReplaySource} {b : Completion}

theorem matchesBoundary_eq_true (h : r.matchesBoundary b = .ok true) :
    r.aligned = .ok true ∧ b.sessionId = r.header.sessionId ∧ b.source = r.header.source ∧
      b.firstSample = r.firstSample ∧ r.availableEnd = .ok b.throughSample := by
  obtain ⟨whole, haligned, h⟩ := bind_eq_ok.mp h
  cases whole with
  | false => cases h
  | true =>
    simp only [Bool.not_true, Bool.false_eq_true, if_false] at h
    split at h
    · cases h
    · next hsame =>
      simp only [Bool.not_eq_true, Bool.or_eq_false_iff, bne_eq_false_iff_eq] at hsame
      obtain ⟨last, hlast, h⟩ := bind_eq_ok.mp h
      have hend : (b.throughSample == last) = true := Except.ok.inj h
      refine ⟨haligned, hsame.1.1, hsame.1.2, hsame.2, ?_⟩
      rw [hlast, eq_of_beq hend]

theorem readBoundary_eq_some {marker : Option (List UInt8)}
    (h : readBoundary json marker = .ok (some b)) :
    ∃ bytes, marker = some bytes ∧ json.boundary.fromSlice bytes = some b ∧ b.schema = 1 := by
  obtain ⟨read, hread, h⟩ := bind_eq_ok.mp h
  cases marker with
  | none =>
    cases h
  | some bytes =>
    obtain ⟨_, hread⟩ := bind_rest hread
    obtain ⟨b', hparse, hread⟩ := bind_eq_ok.mp hread
    cases hread
    obtain ⟨hschema, h⟩ := refuseIf_bind_ok.mp h
    cases h
    exact ⟨bytes, rfl, okOr_eq_ok.mp hparse, by simpa using hschema⟩

/-- The proof a reader sees when it reports the stream complete. -/
structure CompletionSeen (json : Json) (dir : Dir) (r : Reader) (b : Completion) : Prop where
  marker : ∃ bytes, dir.completion = some bytes ∧ json.boundary.fromSlice bytes = some b
  schema : b.schema = 1
  session : b.sessionId = r.header.sessionId
  source : b.source = r.header.source
  first : b.firstSample = r.firstSample
  aligned : r.aligned = .ok true
  through : r.availableEnd = .ok b.throughSample

theorem isComplete_eq_true (h : r.isComplete json dir = .ok true) :
    ∃ b, CompletionSeen json dir r b := by
  obtain ⟨_, h⟩ := bind_rest h
  obtain ⟨read, hread, h⟩ := bind_eq_ok.mp h
  cases read with
  | none => cases h
  | some b =>
    obtain ⟨bytes, hmarker, hparse, hschema⟩ := readBoundary_eq_some hread
    obtain ⟨haligned, hsession, hsource, hfirst, hthrough⟩ := matchesBoundary_eq_true h
    exact ⟨b, ⟨bytes, hmarker, hparse⟩, hschema, hsession, hsource, hfirst, haligned, hthrough⟩

/-- The proof a reader sees when it reports the stream projected. -/
structure ProjectionSeen (json : Json) (dir : Dir) (r : Reader) (proof : ProjectionProof) :
    Prop where
  complete : r.isComplete json dir = .ok true
  marker : ∃ bytes, dir.projected = some bytes ∧ json.projection.fromSlice bytes = some proof
  boundary : r.matchesBoundary proof.boundary = .ok true
  journal : dir.journal = some proof.journalBytes

theorem isProjected_eq_true (h : r.isProjected json dir = .ok true) :
    ∃ proof, ProjectionSeen json dir r proof := by
  obtain ⟨complete, hcomplete, h⟩ := bind_eq_ok.mp h
  cases complete with
  | false => cases h
  | true =>
    obtain ⟨read, hread, h⟩ := bind_eq_ok.mp h
    cases hmarker : dir.projected with
    | none =>
      rw [hmarker] at hread
      cases hread
      cases h
    | some bytes =>
      rw [hmarker] at hread
      obtain ⟨_, hread⟩ := bind_rest hread
      obtain ⟨proof, hparse, hread⟩ := bind_eq_ok.mp hread
      cases hread
      obtain ⟨matched, hmatched, h⟩ := bind_eq_ok.mp h
      split at h
      · cases h
      · next hok =>
        simp only [Bool.not_eq_true, Bool.or_eq_false_iff, Bool.not_eq_false'] at hok
        obtain ⟨length, hlength, h⟩ := bind_eq_ok.mp h
        have hsame : (length == proof.journalBytes) = true := Except.ok.inj h
        refine ⟨proof, hcomplete, ⟨bytes, hmarker, okOr_eq_ok.mp hparse⟩, ?_, ?_⟩
        · rw [hmatched, hok.2]
        · rw [okOr_eq_ok.mp hlength, eq_of_beq hsame]

/-- A boundary that some reader of the stream accepts. -/
def Accepts (json : Json) (source : ReplaySource) (dir : Dir) (b : Completion) : Prop :=
  ∃ sessionId r, openReader json dir sessionId source = .ok r ∧ r.matchesBoundary b = .ok true

/-- A boundary is accepted at one number of samples only. -/
theorem Accepts.sampleCount_eq
    (h : Accepts json source dir b) (h' : Accepts json source dir' b)
    (hfile : dir.audio = some file) (hfile' : dir'.audio = some file') (hgrows : Grows file file') :
    12 + headerLength file.bytes ≤ file.bytes.length ∧
      sampleCount (12 + headerLength file.bytes) file' =
        sampleCount (12 + headerLength file.bytes) file := by
  obtain ⟨_, r, hopen, hmatch⟩ := h
  obtain ⟨_, r', hopen', hmatch'⟩ := h'
  obtain ⟨haudio, hopened, -⟩ := openReader_eq_ok hopen
  obtain ⟨haudio', hopened', -⟩ := openReader_eq_ok hopen'
  obtain rfl : file = r.file := mem_unique hfile haudio
  obtain rfl : file' = r'.file := mem_unique hfile' haudio'
  obtain ⟨hheader, hoffset⟩ := hgrows.header_eq hopened hopened'
  obtain ⟨-, hend, -⟩ := availableEnd_eq_ok.mp (matchesBoundary_eq_true hmatch).2.2.2.2
  obtain ⟨-, hend', -⟩ := availableEnd_eq_ok.mp (matchesBoundary_eq_true hmatch').2.2.2.2
  have hfirst : r'.firstSample = r.firstSample := congrArg Header.firstSample hheader
  refine ⟨hopened.offset ▸ hopened.inside, ?_⟩
  rw [hfirst, hoffset, hopened.offset] at hend'
  rw [hopened.offset] at hend
  unfold sampleCount
  omega

end Reports

/-! ## Appending and sealing -/

variable {io : AppendIo} {s t : Stream} {pcm : List (BitVec 16)}

/-- A successful append of some samples: both proofs are gone and the samples are there. -/
theorem append_ok (h : s.append io pcm = (some (.ok ()), t)) (hpcm : pcm ≠ []) :
    t.dir.completion = none ∧ t.dir.projected = none ∧
      ∃ file file', s.dir.audio = some file ∧ t.dir.audio = some file' ∧
        file'.bytes = file.bytes ++ encodePcm pcm := by
  rcases append_cases io s pcm with heq | ⟨w, file, r, -, hfile, happended, heq⟩
  · cases heq.symm.trans h
  · rw [heq] at h
    cases happended with
    | refused | stuck | torn => cases h
    | nothing _ hnil => exact absurd hnil hpcm
    | written _ _ hdone =>
      cases h
      exact ⟨rfl, rfl, file, _, hfile, rfl, (DurableFile.writeAll_complete hdone).1⟩

/-- A whole sample more. -/
def Longer (dir dir' : Dir) : Prop :=
  ∃ file file', dir.audio = some file ∧ dir'.audio = some file' ∧
    file.bytes.length + 2 ≤ file'.bytes.length

theorem append_longer {r : Option (Except IoError Unit)} (h : s.append io pcm = (r, t))
    (hlonger : Longer s.dir t.dir) : t.dir.completion = none ∧ t.dir.projected = none := by
  obtain ⟨file, file', hfile, hfile', hlength⟩ := hlonger
  have hnew : t.dir.audio ≠ s.dir.audio := by
    intro hsame
    rw [hsame, hfile] at hfile'
    cases hfile'
    omega
  rcases append_cases io s pcm with heq | ⟨w, f, x, -, -, happended, heq⟩
  · cases heq.symm.trans h
    exact absurd rfl hnew
  · cases heq.symm.trans h
    cases happended with
    | refused | nothing | stuck => exact absurd rfl hnew
    | torn | written => exact ⟨rfl, rfl⟩

section Seal

variable {json : Json} {source : ReplaySource}

/-- A stream that takes no more samples: its seal is in place, and whoever owns it knows. -/
structure Frozen (s : Stream) : Prop where
  mark : s.dir.sealedMark.isSome
  audio : s.dir.audio.isSome
  owner : ∀ w, s.owner = some w → (w.isSealed || w.prefixOnly) = true

/-- A seal that is read is at the end of the audio. -/
theorem sealedEnd_available {last : ℕ}
    (h : r.sealedEnd json dir = .ok (some last)) : r.availableEnd = .ok last := by
  obtain ⟨read, -, h⟩ := bind_eq_ok.mp h
  cases read with
  | none => cases h
  | some b =>
    obtain ⟨matched, hmatched, h⟩ := bind_eq_ok.mp h
    split at h
    · next htrue =>
      cases h
      rw [htrue] at hmatched
      exact (matchesBoundary_eq_true hmatched).2.2.2.2
    · cases h

variable {s : Stream}

theorem Frozen.append (h : Frozen s) (io : AppendIo) (pcm : List (BitVec 16)) :
    (∃ e, s.append io pcm = (some (.error e), s)) ∨ s.append io pcm = (none, s) := by
  rcases append_cases io s pcm with heq | ⟨w, file, r, howner, -, happended, heq⟩
  · exact .inr heq
  · have hsealed := h.owner w howner
    cases happended with
    | refused e => exact .inl ⟨e, heq⟩
    | nothing hcan | stuck hcan | torn hcan | written hcan =>
      rw [hcan.unsealed, hcan.whole] at hsealed
      cases hsealed

theorem sealStream_frozen {io : MarkIo}
    (h : s.sealStream json io source = (some (.ok ()), t)) : Frozen t := by
  rcases sealStream_cases json io s source with heq | ⟨w, r, -, hsealed, heq⟩
  · cases heq.symm.trans h
  · rw [heq] at h
    cases hsealed with
    | stopped => cases h
    | done _ hfile hmark =>
      cases h
      exact ⟨hmark, hfile, fun w' hw' => by cases hw'; rfl⟩

theorem Frozen.step (hs : Frozen s) (event : Event) : Frozen (step json source s event) := by
  obtain ⟨file, hfile⟩ := isSome_iff_exists.mp hs.audio
  obtain ⟨⟨file', hfile', -⟩, hmark, howner⟩ : Effect file s (Replay.step json source s event) :=
    step_effect hfile event
  refine ⟨hmark hs.mark, isSome_iff_exists.mpr ⟨file', hfile'⟩, fun w hw => ?_⟩
  rcases howner hs.mark w hw with hknows | ⟨w', hw', hsame⟩
  · exact hknows
  · rw [← hsame]
    exact hs.owner w' hw'

theorem Frozen.run (hs : Frozen s) (events : List Event) : Frozen (run json source s events) :=
  foldlRecOn events (Replay.step json source) hs fun _ ht event _ => ht.step event

end Seal

/-! ## Every run -/

/-- What the reports and refusals of a stream say at `t`, reached from `s`. -/
structure Proofs (json : Json) (source : ReplaySource) (s t : Stream) : Prop where
  complete : ∀ sessionId r, openReader json t.dir sessionId source = .ok r →
    r.isComplete json t.dir = .ok true →
      r.header.sessionId = sessionId ∧ r.header.source = source ∧
        ∃ b, CompletionSeen json t.dir r b
  projected : ∀ sessionId r, openReader json t.dir sessionId source = .ok r →
    r.isProjected json t.dir = .ok true → ∃ proof, ProjectionSeen json t.dir r proof
  appended : ∀ io pcm u, t.append io pcm = (some (.ok ()), u) → pcm ≠ [] → Longer t.dir u.dir
  longer : ∀ io pcm r u, t.append io pcm = (r, u) → Longer t.dir u.dir →
    u.dir.completion = none ∧ u.dir.projected = none ∧
      ∀ b, Accepts json source s.dir b → ∀ after,
        ¬Accepts json source (run json source u after).dir b
  frozen : ∀ io u, t.sealStream json io source = (some (.ok ()), u) →
    ∀ after io' pcm,
      (∃ e, (run json source u after).append io' pcm =
        (some (.error e), run json source u after)) ∨
      (run json source u after).append io' pcm = (none, run json source u after)

/-- In every run `s → t → …`: a stream reported complete or projected has a proof that says so
    of its present audio and journal; what was accepted before an append that wrote a sample,
    failed or not, is accepted never again; and after a seal every append is refused without a
    change. -/
theorem run_proofs (json : Json) (source : ReplaySource) (s : Stream) (before : List Event) :
    Proofs json source s (run json source s before) where
  complete := by
    intro sessionId r hopen hcomplete
    obtain ⟨-, -, hsession, hsource⟩ := openReader_eq_ok hopen
    exact ⟨hsession, hsource, isComplete_eq_true hcomplete⟩
  projected := fun sessionId r _ hprojected => isProjected_eq_true hprojected
  appended := by
    intro io pcm u happend hpcm
    obtain ⟨-, -, file, file', hfile, hfile', hbytes⟩ := append_ok happend hpcm
    refine ⟨file, file', hfile, hfile', ?_⟩
    have hpos : 0 < pcm.length := length_pos_iff.mpr hpcm
    rw [hbytes, length_append, encodePcm_length]
    omega
  longer := by
    intro io pcm result u happend hlonger
    obtain ⟨hcompletion, hprojected⟩ := append_longer happend hlonger
    refine ⟨hcompletion, hprojected, ?_⟩
    intro b hb after hb'
    obtain ⟨file, file', hfile, hfile', hlength⟩ := hlonger
    obtain ⟨_, r, hopen, -⟩ := id hb
    obtain ⟨haudio, hopened, -⟩ := openReader_eq_ok hopen
    obtain ⟨reached, hreached, hgrows⟩ : Keeps r.file (run json source s before).dir :=
      run_keeps haudio before
    obtain rfl : file = reached := mem_unique hfile hreached
    obtain rfl : ((run json source s before).append io pcm).2 = u := by rw [happend]
    obtain ⟨now, hnow, happended⟩ : Keeps file (run json source _ [.append io pcm]).dir :=
      run_keeps hfile _
    obtain rfl : file' = now := mem_unique hfile' hnow
    obtain ⟨last, hlast, hgrows'⟩ : Keeps file' (run json source _ after).dir :=
      run_keeps hfile' after
    obtain ⟨hinside, hsame⟩ :=
      hb.sampleCount_eq hb' haudio hlast (hgrows.trans (happended.trans hgrows'))
    -- the append added a complete sample, and none was lost
    have hfileInside := (hgrows.header hinside).1
    have hmore : sampleCount (12 + headerLength r.file.bytes) file <
        sampleCount (12 + headerLength r.file.bytes) file' := by
      unfold sampleCount
      omega
    have hlen' := (hgrows.trans happended).headerLength_eq hinside
    have hlater := hgrows'.samples (by
      rw [hlen']
      exact ((hgrows.trans happended).header hinside).1)
    have hbefore := hgrows.samples hinside
    rw [hlen'] at hlater
    omega
  frozen := fun io u hseal after io' pcm => ((sealStream_frozen hseal).run after).append io' pcm

/-- JSON that knows one value and its text. -/
def oneValue {α : Type} [DecidableEq α] (value : α) (text : String) : Codec α where
  toVec a := if a = value then text.toUTF8.data.toList else []
  fromSlice bytes := if bytes = text.toUTF8.data.toList then some value else none

def sampleJson : Json where
  header := oneValue ⟨"s", .system, 16000, 0, none⟩
    ("\x7b\"session_id\":\"s\",\"source\":\"system\"," ++
      "\"sample_rate\":16000,\"first_sample\":0\x7d")
  boundary := oneValue ⟨1, "s", .system, 0, 2⟩
    ("\x7b\"schema\":1,\"session_id\":\"s\",\"source\":\"system\"," ++
      "\"first_sample\":0,\"through_sample\":2\x7d")
  projection := oneValue ⟨⟨1, "s", .system, 0, 2⟩, 7⟩
    ("\x7b\"boundary\":\x7b\"schema\":1,\"session_id\":\"s\",\"source\":\"system\"," ++
      "\"first_sample\":0,\"through_sample\":2\x7d,\"journal_bytes\":7\x7d")

def sampleRun : List Event := [
  .create ⟨none, true, true, true⟩ "s" 0,
  .append ⟨.done, .done, none⟩ [5, 6],
  .sealStream ⟨true, true, .done⟩,
  .release,
  .resume ⟨true, true⟩ "s" fun _ => .ok (),
  .journal (some 7),
  .markComplete ⟨true, true, .done⟩ "s" 2,
  .markProjected ⟨true, true, .done⟩ "s" 2 7]

/-- Two samples appended, sealed, resumed, and marked complete and projected. -/
theorem run_proofs_sample :
    let t := run sampleJson .system ⟨⟨none, none, none, none, none⟩, none⟩ sampleRun
    (openReader sampleJson t.dir "s" .system >>= fun r => r.isProjected sampleJson t.dir) =
        .ok true ∧
      t.owner.any (·.isSealed) = true ∧
      Proofs sampleJson .system ⟨⟨none, none, none, none, none⟩, none⟩ t :=
  ⟨by decide, by decide, run_proofs sampleJson .system _ sampleRun⟩

end FlyOnTheWall.Replay
