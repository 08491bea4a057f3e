/-
  Encoding a session and verifying what it recorded.

  * `Resampler.Works`: the assumption on the archive converter, that its output has
    ⌊frames · 16000 / rate⌋ samples in total.
  * `usableBlocks`: the whole frames the read loop hands on; their total does not depend on how
    the reads cut the file.
  * `encodePcm_ok`: the archive of a leg holds the samples of its whole frames.
  * `verifyEncodedTrack_iff`: the recorded track passes verification exactly if the raw leg is a
    whole number of frames and its duration can be counted.
  * `encodeSession_leaves`: what a session encode leaves, for both places it can write to.
-/
import FlyOnTheWall.Pipeline.OpusRun
import FlyOnTheWall.Pipeline.Wal
import Mathlib.Algebra.Ring.Int.Defs

namespace FlyOnTheWall.Wal
open Lib Opus List SessionDir

/-! ## Assumptions -/

/-- Rates the encoder takes, directly or through the converter. -/
def Accepted (rate : ℕ) : Prop := rate ∈ supportedRates ∨ 4000 ≤ rate ∧ rate ≤ 768000

structure Resampler.Works {φ ρ : Type} (r : Resampler φ ρ) (pcm : Pcm φ) : Prop where
  total : ∀ rate, 4000 ≤ rate → rate ≤ 768000 → ∀ blocks : List (List φ),
    (∀ block ∈ blocks, ∀ x ∈ block, pcm.finite x = true) → blocks.flatten.length < 2 ^ 64 →
    ∃ n st tail, r.processAll (r.new rate) blocks = .ok (n, st) ∧ r.finish st = .ok tail ∧
      n + tail.length = blocks.flatten.length * targetRate / rate

section
variable {σ δ φ ρ : Type} {codecs : Codecs σ δ φ ρ}

/-! ## Blocks of whole frames -/

theorem chunksExact_length {α : Type} (n : ℕ) (xs : List α) :
    (chunksExact n xs).length = xs.length / n := by
  simp [chunksExact]

variable (bytes : List UInt8)

theorem samplesOf_length : (samplesOf codecs bytes).length = bytes.length / 2 := by
  rw [samplesOf, length_map, chunksExact_length]

variable {channels : ℕ}

theorem toMono_length (interleaved : List φ) (h : 0 < channels) :
    (toMono codecs interleaved channels).length = interleaved.length / channels := by
  have hmax : max channels 1 = channels := by omega
  rw [toMono, hmax]
  split
  · next hone =>
    rw [hone, Nat.div_one]
  · rw [length_map, chunksExact_length]

theorem monoOf_length (h : 0 < channels) :
    (toMono codecs (samplesOf codecs bytes) channels).length = bytes.length / (2 * channels) := by
  rw [toMono_length _ h, samplesOf_length, Nat.div_div_eq_div_mul]

theorem monoOf_finite (channels : ℕ) :
    ∀ x ∈ toMono codecs (samplesOf codecs bytes) channels, codecs.pcm.finite x = true := by
  have hints : samplesOf codecs bytes =
      ((chunksExact 2 bytes).map i16OfLe).map codecs.pcm.ofI16 := by
    rw [samplesOf, map_map]
    rfl
  intro x hx
  rw [toMono, hints] at hx
  split at hx
  · obtain ⟨i, -, rfl⟩ := mem_map.mp hx
    exact codecs.pcm.ofI16_finite i
  · obtain ⟨frame, hframe, rfl⟩ := mem_map.mp hx
    obtain ⟨i, -, rfl⟩ := mem_map.mp hframe
    rw [← map_drop, ← map_take]
    exact codecs.pcm.mean_finite _

/-- The blocks the read loop hands on. -/
def usableBlocks (frameBytes : ℕ) : List (List UInt8) → List UInt8 → List (List UInt8)
  | [], _ => []
  | block :: blocks, carry =>
    let carry := carry ++ block
    let usable := carry.length / frameBytes * frameBytes
    if usable = 0 then usableBlocks frameBytes blocks carry
    else carry.take usable :: usableBlocks frameBytes blocks (carry.drop usable)

theorem transcode_eq (channels : ℕ) (blocks : List (List UInt8)) (carry : List UInt8)
    (resampler : Option ρ) (w : Writer σ) :
    transcode codecs channels blocks carry resampler w =
      (usableBlocks (2 * channels) blocks carry).foldlM
        (fun p usable => pushBlock codecs channels usable p.1 p.2) (resampler, w) := by
  induction blocks generalizing carry resampler w with
  | nil => rfl
  | cons block blocks ih =>
    rw [transcode, usableBlocks]
    split
    · exact ih _ _ _
    · refine bind_congr fun p => ?_
      exact ih _ _ _

/-- The whole frames of everything read, whatever the reads were. -/
theorem usableBlocks_total {frameBytes : ℕ} (hpos : 0 < frameBytes)
    (blocks : List (List UInt8)) (carry : List UInt8) (hcarry : carry.length < frameBytes) :
    ((usableBlocks frameBytes blocks carry).map fun u => u.length / frameBytes).sum =
      (carry.length + blocks.flatten.length) / frameBytes := by
  induction blocks generalizing carry with
  | nil => simp [usableBlocks, Nat.div_eq_of_lt hcarry]
  | cons block blocks ih =>
    have hmod := Nat.mod_lt (carry ++ block).length hpos
    have hsplit := Nat.div_add_mod (carry ++ block).length frameBytes
    rw [mul_comm] at hsplit
    have hsum : carry.length + (block :: blocks).flatten.length =
        (carry ++ block).length + blocks.flatten.length := by
      simp [add_assoc]
    rw [usableBlocks, hsum]
    split
    · have hshort : (carry ++ block).length < frameBytes := by omega
      exact ih _ hshort
    · have htake : ((carry ++ block).take
          ((carry ++ block).length / frameBytes * frameBytes)).length =
          (carry ++ block).length / frameBytes * frameBytes := by
        rw [length_take]
        omega
      have hdrop : ((carry ++ block).drop
          ((carry ++ block).length / frameBytes * frameBytes)).length =
          (carry ++ block).length % frameBytes := by
        rw [length_drop]
        omega
      rw [map_cons, sum_cons, ih _ (by omega), htake, hdrop, Nat.mul_div_cancel _ hpos]
      have hregroup : (carry ++ block).length + blocks.flatten.length =
          (carry ++ block).length % frameBytes + blocks.flatten.length +
            (carry ++ block).length / frameBytes * frameBytes := by
        omega
      rw [hregroup, Nat.add_mul_div_right _ _ hpos, Nat.add_comm]

/-! ## Pushing blocks -/

section Push
variable {rate : ℕ} {works : codecs.lib.Works rate} {w : Writer σ} {n : ℕ}

/-- A writer that has been given `n` samples and waits for less than a frame. -/
def Given (works : codecs.lib.Works rate) (n : ℕ) (w : Writer σ) : Prop :=
  ∃ ps d, Writer.Holds works n ps d w

section
variable (hrate : rate ∈ supportedRates)
include hrate

theorem Given.push (h : Given works n w) (pcm : List φ) :
    ∃ w', w.pushF32 codecs.lib codecs.pcm.toI16 pcm = .ok w' ∧ Given works (n + pcm.length) w' := by
  obtain ⟨ps, d, hholds⟩ := h
  obtain ⟨w', ps', d', hok, hholds', -⟩ :=
    Writer.pushI16_ok hrate hholds (pcm.map codecs.pcm.toI16)
  rw [length_map] at hholds'
  exact ⟨w', hok, ps', d', hholds'⟩

/-- Without a converter every sample of the blocks is pushed. -/
theorem push_direct (hpos : 0 < channels)
    (blocks : List (List UInt8)) (h : Given works n w) :
    ∃ w', blocks.foldlM (fun p usable => pushBlock codecs channels usable p.1 p.2) (none, w) =
        .ok (none, w') ∧
      Given works (n + (blocks.map fun u => u.length / (2 * channels)).sum) w' := by
  induction blocks generalizing n w with
  | nil => exact ⟨w, rfl, h⟩
  | cons block blocks ih =>
    obtain ⟨w1, hpush, h1⟩ := h.push hrate (toMono codecs (samplesOf codecs block) channels)
    rw [monoOf_length _ hpos] at h1
    obtain ⟨w', hrun, h'⟩ := ih h1
    refine ⟨w', ?_, ?_⟩
    · rw [foldlM_cons, pushBlock]
      rw [hpush, ok_bind, ok_bind]
      exact hrun
    · rwa [map_cons, sum_cons, ← add_assoc]

/-- With a converter what comes out of it is pushed. -/
theorem push_converted {m : ℕ} {st st' : ρ}
    (blocks : List (List UInt8)) (h : Given works n w)
    (hall : codecs.resampler.processAll st
      (blocks.map fun u => toMono codecs (samplesOf codecs u) channels) = .ok (m, st')) :
    ∃ w', blocks.foldlM (fun p usable => pushBlock codecs channels usable p.1 p.2) (some st, w) =
        .ok (some st', w') ∧ Given works (n + m) w' := by
  induction blocks generalizing n w m st with
  | nil =>
    obtain ⟨rfl, rfl⟩ := Prod.mk.inj (Except.ok.inj hall)
    exact ⟨w, rfl, h⟩
  | cons block blocks ih =>
    obtain ⟨⟨out, st1⟩, hone, hall⟩ := bind_eq_ok.mp hall
    obtain ⟨⟨m1, st2⟩, hrest, hall⟩ := bind_eq_ok.mp hall
    obtain ⟨rfl, rfl⟩ := Prod.mk.inj (Except.ok.inj hall)
    obtain ⟨w1, hpush, h1⟩ := h.push hrate out
    obtain ⟨w', hrun, h'⟩ := ih h1 hrest
    refine ⟨w', ?_, ?_⟩
    · rw [foldlM_cons, pushBlock]
      rw [hone]
      dsimp only
      rw [hpush, ok_bind, ok_bind]
      exact hrun
    · rwa [← add_assoc]

end

end Push

/-! ## The archive of one leg -/

/-- The samples the encoder of a leg is given. -/
def sampleCount (format : TrackFormat) (bytes : ℕ) : ℕ :=
  bytes / (2 * format.channels) * expectedRate format.sampleRateHz / format.sampleRateHz

theorem expectedRate_mem (rate : ℕ) : expectedRate rate ∈ supportedRates := by
  rw [expectedRate]
  split
  · assumption
  · decide

variable {format : TrackFormat}

theorem sampleCount_direct (h : format.sampleRateHz ∈ supportedRates) (bytes : ℕ) :
    sampleCount format bytes = bytes / (2 * format.channels) := by
  have hpos : 0 < format.sampleRateHz := by
    rw [mem_supportedRates] at h
    omega
  rw [sampleCount, expectedRate, if_pos h, Nat.mul_div_cancel _ hpos]

theorem sampleCount_converted (h : format.sampleRateHz ∉ supportedRates) (bytes : ℕ) :
    sampleCount format bytes =
      bytes / (2 * format.channels) * targetRate / format.sampleRateHz := by
  rw [sampleCount, expectedRate, if_neg h]

/-- The raw leg as a byte count; nothing but an ordinary file can be read. -/
inductive RawLeg : Option Node → List UInt8 → Prop
  | none : RawLeg none []
  | file (contents : DurableFile) : RawLeg (some (.file contents)) contents.bytes

variable {pcm : Option Node} {bytes : List UInt8}

theorem RawLeg.length_le (h : RawLeg pcm bytes) : bytes.length ≤ maxFileBytes := by
  cases h with
  | none => exact Nat.zero_le _
  | file contents => exact contents.fits

/-- The read loop over a raw leg is the loop over its blocks of whole frames. -/
theorem transcodeFile_eq (codecs : Codecs σ δ φ ρ) (h : RawLeg pcm bytes)
    (reads : (bytes : List UInt8) → Reads bytes) (hpos : 0 < channels) (resampler : Option ρ)
    (w : Writer σ) :
    ∃ blocks : List (List UInt8),
      (blocks.map fun u => u.length / (2 * channels)).sum = bytes.length / (2 * channels) ∧
      transcodeFile codecs reads channels pcm resampler w =
        blocks.foldlM (fun p usable => pushBlock codecs channels usable p.1 p.2)
          (resampler, w) := by
  have hframe : 0 < 2 * channels := by omega
  cases h with
  | none => exact ⟨[], by simp, rfl⟩
  | file contents =>
    rw [transcodeFile]
    split
    · next hempty =>
      exact ⟨[], by simp [hempty], rfl⟩
    · refine ⟨usableBlocks (2 * channels) (reads contents.bytes).blocks [], ?_,
        transcode_eq channels _ _ _ _⟩
      rw [usableBlocks_total hframe _ _ (by simpa using hframe), (reads contents.bytes).flatten_eq,
        length_nil, zero_add]

theorem flatten_monoOf_length (codecs : Codecs σ δ φ ρ) (hpos : 0 < channels)
    (blocks : List (List UInt8)) :
    ((blocks.map fun u => toMono codecs (samplesOf codecs u) channels).flatten).length =
      (blocks.map fun u => u.length / (2 * channels)).sum := by
  rw [length_flatten, map_map]
  exact congrArg sum (map_congr_left fun u _ => monoOf_length u hpos)

/-- The whole frames of a leg reach the writer, at the encoder's rate. -/
theorem feed_ok (hres : codecs.resampler.Works codecs.pcm)
    (reads : (bytes : List UInt8) → Reads bytes) (hrate : Accepted format.sampleRateHz)
    (hchannels : 0 < format.channels) (hpcm : RawLeg pcm bytes)
    {works : codecs.lib.Works (expectedRate format.sampleRateHz)} {w : Writer σ}
    (hw : Given works 0 w) :
    ∃ resampler p w', converterFor codecs format.sampleRateHz = .ok resampler ∧
      transcodeFile codecs reads format.channels pcm resampler w = .ok p ∧
      flushTail codecs p.1 p.2 = .ok w' ∧ Given works (sampleCount format bytes.length) w' := by
  have herate := expectedRate_mem format.sampleRateHz
  have hbytes := hpcm.length_le
  by_cases hsupported : format.sampleRateHz ∈ supportedRates
  · obtain ⟨blocks, hsum, heq⟩ := transcodeFile_eq codecs hpcm reads hchannels none w
    obtain ⟨w', hrun, hw'⟩ := push_direct herate hchannels blocks hw
    refine ⟨none, (none, w'), w', by rw [converterFor, if_pos hsupported], heq.trans hrun, rfl, ?_⟩
    rw [zero_add, hsum] at hw'
    rwa [sampleCount_direct hsupported]
  · obtain ⟨hlow, hhigh⟩ := hrate.resolve_left hsupported
    obtain ⟨blocks, hsum, heq⟩ := transcodeFile_eq codecs hpcm reads hchannels
      (some (codecs.resampler.new format.sampleRateHz)) w
    have htotal := flatten_monoOf_length codecs hchannels blocks
    have hfinite : ∀ block ∈ blocks.map fun u => toMono codecs (samplesOf codecs u) format.channels,
        ∀ x ∈ block, codecs.pcm.finite x = true := by
      intro block hblock
      obtain ⟨u, -, rfl⟩ := mem_map.mp hblock
      exact monoOf_finite u format.channels
    have hdiv := Nat.div_le_self bytes.length (2 * format.channels)
    obtain ⟨n, st, tail, hall, htail, hcount⟩ := hres.total format.sampleRateHz hlow hhigh _ hfinite
      (by rw [htotal, hsum]; unfold maxFileBytes at hbytes; omega)
    obtain ⟨w1, hrun, hw1⟩ := push_converted herate blocks hw hall
    obtain ⟨w', hpush, hw'⟩ := hw1.push herate tail
    refine ⟨some (codecs.resampler.new format.sampleRateHz), (some st, w1), w', ?_, heq.trans hrun,
      ?_, ?_⟩
    · rw [converterFor, if_neg hsupported, if_pos ⟨hlow, hhigh⟩]
    · rw [flushTail]
      rw [htail]
      exact hpush
    · rw [zero_add, hcount, htotal, hsum] at hw'
      rwa [sampleCount_converted hsupported]

/-- What is assumed of the codec and the converter. -/
structure Lawful (codecs : Codecs σ δ φ ρ) where
  works : (rate : ℕ) → rate ∈ supportedRates → codecs.lib.Works rate
  resampler : codecs.resampler.Works codecs.pcm

/-- The encoder at the rate of a leg. -/
def Lawful.encoder (laws : Lawful codecs) (format : TrackFormat) :
    codecs.lib.Works (expectedRate format.sampleRateHz) :=
  laws.works _ (expectedRate_mem format.sampleRateHz)

/-- The encode of a leg: its statistics, and an archive the inspector reads back. -/
theorem encodePcm_ok (laws : Lawful codecs) (reads : (bytes : List UInt8) → Reads bytes)
    (hsane : format.sane = format) (hrate : Accepted format.sampleRateHz) (hpcm : RawLeg pcm bytes)
    {serial : ℕ} (hserial : serial < 2 ^ 32) :
    ∃ stats packets, encodePcm codecs reads format pcm = .ok (stats, packets) ∧
      stats.inputSamples = u64 (sampleCount format bytes.length) ∧
      stats.sampleRateHz = expectedRate format.sampleRateHz ∧
      (sampleCount format bytes.length * 1000 < 2 ^ 64 →
        (codecs.muxer.mux serial packets).length ≤ maxFileBytes ∧
        ∃ count, inspectCompleteArchive codecs.lib (codecs.muxer.mux serial packets) =
          .ok ⟨expectedRate format.sampleRateHz,
            sampleCount format bytes.length * (granuleRate / expectedRate format.sampleRateHz),
            count, (codecs.muxer.mux serial packets).length⟩) := by
  have herate := expectedRate_mem format.sampleRateHz
  have hchannels : 0 < format.channels := by
    rw [← hsane]
    exact lt_of_lt_of_le zero_lt_one (le_max_right _ _)
  obtain ⟨w0, hcreate, hholds0, -⟩ := Writer.create_ok (laws.encoder format) herate
  obtain ⟨resampler, p, w, hconverter, hread, hflush, ps, d, hholds⟩ :=
    feed_ok laws.resampler reads hrate hchannels hpcm ⟨_, _, hholds0⟩
  obtain ⟨stats, qs, last, hfinish, hinput, hsample, hclosed, hlow, hhigh⟩ :=
    Writer.finish_ok herate hholds
  refine ⟨stats, Writer.headersOf (Writer.skipOf (laws.encoder format))
    (expectedRate format.sampleRateHz) ++ (qs ++ [last]), ?_, hinput, hsample, fun hfits => ?_⟩
  · rw [encodePcm, hsane, hconverter, ok_bind, hcreate, ok_bind, hread, ok_bind]
    show (do let w ← flushTail codecs p.1 p.2; w.finish codecs.lib) = _
    rw [hflush, ok_bind, hfinish]
  · obtain ⟨archive, hmux, hlen, hinspect⟩ := inspect_archive (laws.encoder format) herate
      codecs.muxer hserial hclosed hlow hhigh hfits
    rw [hmux]
    exact ⟨hlen, _, hinspect⟩

/-! ## The record of one leg -/

/-- What the record of a leg says about its archive. -/
structure Recorded (codecs : Codecs σ δ φ ρ) (format : TrackFormat) (bytes : ℕ)
    (track : EncodedTrack) (file : DurableFile) : Prop where
  pcmBytes_eq : track.pcmBytes = bytes
  opusBytes_eq : track.opusBytes = file.bytes.length
  sampleRateHz_eq : track.sampleRateHz = expectedRate format.sampleRateHz
  durationMs_eq : track.durationMs =
    u64 (u64 (sampleCount format bytes) * 1000) / expectedRate format.sampleRateHz
  synced : file.synced = file.bytes.length
  inspects : sampleCount format bytes * 1000 < 2 ^ 64 → ∃ count,
    inspectCompleteArchive codecs.lib file.bytes = .ok ⟨expectedRate format.sampleRateHz,
      sampleCount format bytes * (granuleRate / expectedRate format.sampleRateHz), count,
      file.bytes.length⟩

variable (dir : SessionDir) (place : Option String) (leg : Leg)

def SessionDir.putArchive (file : DurableFile) : SessionDir :=
  { dir with archives := dir.archives.setFile place leg (some (.file file)) }

theorem putArchive_putArchive (f g : DurableFile) :
    (dir.putArchive place leg f).putArchive place leg g = dir.putArchive place leg g := by
  simp only [putArchive, ArchiveDir.setFile]
  congr 2
  funext p l
  split <;> rfl

theorem accepted_of_encodePcm {reads : (bytes : List UInt8) → Reads bytes}
    (hsane : format.sane = format) {result : OpusStats × List Ogg.Packet}
    (h : encodePcm codecs reads format pcm = .ok result) : Accepted format.sampleRateHz := by
  rw [encodePcm, hsane] at h
  obtain ⟨resampler, hconverter, -⟩ := bind_eq_ok.mp h
  rw [converterFor] at hconverter
  split at hconverter
  · next hmem =>
    exact .inl hmem
  · split at hconverter
    · next hrange =>
      exact .inr hrange
    · exact (error_ne_ok hconverter).elim

theorem RawLeg.length_eq (h : RawLeg pcm bytes) : pcm.elim 0 Node.len = bytes.length := by
  cases h <;> rfl

variable {leg : Leg} {file : DurableFile}

/-- A record and an archive that are what the encode of a leg leaves. -/
theorem recorded_encode (laws : Lawful codecs) (env : EncodeEnv) (hsane : format.sane = format)
    (hpcm : RawLeg pcm bytes) {stats : OpusStats} {packets : List Ogg.Packet}
    (hok : encodePcm codecs env.reads format pcm = .ok (stats, packets))
    (hbytes : file.bytes = codecs.muxer.mux (env.serial leg) packets)
    (hsynced : file.synced = file.bytes.length) :
    Recorded codecs format bytes.length ⟨leg.opus, pcm.elim 0 Node.len, file.bytes.length,
      stats.durationMs, expectedRate format.sane.sampleRateHz⟩ file := by
  obtain ⟨stats', packets', hok', hinput, hsample, hfits⟩ :=
    encodePcm_ok laws env.reads hsane (accepted_of_encodePcm hsane hok) hpcm (env.serial_lt leg)
  obtain ⟨rfl, rfl⟩ : stats' = stats ∧ packets' = packets := by
    rw [hok, Except.ok.injEq, Prod.mk.injEq] at hok'
    exact ⟨hok'.1.symm, hok'.2.symm⟩
  refine ⟨hpcm.length_eq, rfl, by rw [hsane], ?_, hsynced, fun h => ?_⟩
  · show stats'.durationMs = _
    rw [OpusStats.durationMs, hinput, hsample]
    split
    · next hzero =>
      rw [hzero, Nat.div_zero]
    · rfl
  · obtain ⟨-, count, hinspect⟩ := hfits h
    rw [← hbytes] at hinspect
    exact ⟨count, hinspect⟩

/-- The file that holds an archive after it was written and synced. -/
def archiveFile (archive : List UInt8) : DurableFile :=
  (DurableFile.empty.writeAll archive none).1.sync

theorem archiveFile_bytes {archive : List UInt8} (h : archive.length ≤ maxFileBytes) :
    (archiveFile archive).bytes = archive := by
  show [] ++ archive.take (maxFileBytes - 0) = archive
  rw [nil_append, take_of_length_le (by omega)]

variable {env : EncodeEnv} {place : Option String} {after dir : SessionDir} {track : EncodedTrack}
  {archives : ArchiveDir}

open Prog

/-- The encode of a leg returns exactly if the transcode does and the archive fits a file. -/
theorem encodeTrack_iff : (encodeTrack codecs env place leg format).Returns dir track after ↔
      ∃ stats packets, encodePcm codecs env.reads format (dir.pcm leg) = .ok (stats, packets) ∧
        (codecs.muxer.mux (env.serial leg) packets).length ≤ maxFileBytes ∧
        track = ⟨leg.opus, (dir.pcm leg).elim 0 Node.len,
          (archiveFile (codecs.muxer.mux (env.serial leg) packets)).bytes.length,
          stats.durationMs, expectedRate format.sane.sampleRateHz⟩ ∧
        after = dir.putArchive place leg
          (archiveFile (codecs.muxer.mux (env.serial leg) packets)) := by
  have hputs : ∀ f g h : DurableFile,
      ((dir.putArchive place leg f).putArchive place leg g).putArchive
      place leg h = dir.putArchive place leg h := by
    intro f g h
    rw [putArchive_putArchive, putArchive_putArchive]
  simp only [encodeTrack, returns_bind, returns_read, returns_step, returns_pure]
  constructor
  · rintro ⟨_, _, ⟨hdir, rfl⟩, _, _, ⟨-, rfl⟩, _, _, rfl, ⟨stats, packets⟩, _, ⟨hok, rfl⟩, _, _,
      rfl, _, _,
      ⟨hroom, rfl⟩, _, _, rfl, rfl, rfl⟩
    cases hdir
    refine ⟨stats, packets, hok, ?_, rfl, hputs _ _ _⟩
    have hcomplete := DurableFile.writeAll_complete
      (by simpa using refuseIf_eq_ok.mp hroom : (DurableFile.empty.writeAll _ none).2 = true)
    exact Nat.le_trans (Nat.le_add_left _ _) hcomplete.2
  · rintro ⟨stats, packets, hok, hroom, rfl, rfl⟩
    obtain ⟨converter, hconverter, -⟩ := bind_eq_ok.mp hok
    refine ⟨dir, dir, ⟨rfl, rfl⟩, converter, dir, ⟨hconverter, rfl⟩, (), _, rfl,
      (stats, packets), _,
      ⟨hok, rfl⟩, (), _, rfl, (), _, ⟨?_, rfl⟩, (), _, rfl, rfl, hputs _ _ _⟩
    refine refuseIf_eq_ok.mpr ?_
    have hfits : ([] : List UInt8).length + _ ≤ maxFileBytes :=
      le_trans (le_of_eq (zero_add _)) hroom
    rw [Bool.not_eq_false']
    exact decide_eq_true hfits

/-! ## Verifying what was recorded -/

/-- The raw leg is a whole number of interleaved frames. -/
def WholeFrames (format : TrackFormat) (bytes : ℕ) : Prop := bytes % (format.channels * 2) = 0

/-- The duration is computed without wrapping. -/
def DurationFits (format : TrackFormat) (bytes : ℕ) : Prop :=
  sampleCount format bytes * 1000 < 2 ^ 64

instance (format : TrackFormat) (bytes : ℕ) : Decidable (WholeFrames format bytes) :=
  inferInstanceAs (Decidable (_ = _))

instance (format : TrackFormat) (bytes : ℕ) : Decidable (DurationFits format bytes) :=
  inferInstanceAs (Decidable (_ < _))

/-- Granule ticks and samples give the same number of milliseconds. -/
theorem ticks_durationMs {rate : ℕ} (h : rate ∈ supportedRates) (n : ℕ) :
    n * (granuleRate / rate) / 48 = n * 1000 / rate := by
  rw [mem_supportedRates] at h
  rcases h with rfl | rfl | rfl | rfl | rfl <;>
    simp only [granuleRate] <;> omega

/-- A product that wrapped gives a shorter duration. -/
theorem durationMs_iff {rate n : ℕ} (h : rate ∈ supportedRates) (hn : n < 2 ^ 64) :
    n * 1000 / rate = u64 (u64 n * 1000) / rate ↔ n * 1000 < 2 ^ 64 := by
  have hu64 : u64 n = n := Nat.mod_eq_of_lt hn
  rw [hu64]
  constructor
  · intro heq
    by_contra hwrap
    have hmod : u64 (n * 1000) ≤ n * 1000 - 2 ^ 64 := by
      show n * 1000 % 2 ^ 64 ≤ n * 1000 - 2 ^ 64
      omega
    have hle := Nat.div_le_div_right (c := rate) hmod
    have hdrop : (n * 1000 - 2 ^ 64) / rate < n * 1000 / rate := by
      rw [mem_supportedRates] at h
      rcases h with rfl | rfl | rfl | rfl | rfl <;> omega
    omega
  · intro hfits
    have hprod : u64 (n * 1000) = n * 1000 := Nat.mod_eq_of_lt hfits
    rw [hprod]

/-- The verifier recomputes the number of samples the encoder was given. -/
theorem encodedFrames_iff (hsane : format.sane = format) {bytes : ℕ}
    (hrec : Recorded codecs format bytes track file) {frames : ℕ} :
    encodedFrames track (some format) = .ok frames ↔
      WholeFrames format bytes ∧ frames = sampleCount format bytes := by
  have hrate : (format.sampleRateHz == 0) = false := by
    rw [← hsane]
    exact beq_false_of_ne (Nat.ne_of_gt (Nat.le_max_right _ _))
  have hchannels : (format.channels == 0) = false := by
    rw [← hsane]
    exact beq_false_of_ne (Nat.ne_of_gt (Nat.le_max_right _ _))
  have hcount : bytes / 2 / format.channels * expectedRate format.sampleRateHz /
      format.sampleRateHz = sampleCount format bytes := by
    rw [Nat.div_div_eq_div_mul]
    rfl
  simp only [encodedFrames, hrate, hchannels, hcount, hrec.pcmBytes_eq, hrec.sampleRateHz_eq,
    bind_eq_ok, refuseIf_eq_ok, Bool.or_self, Bool.false_or, bne_eq_false_iff_eq, Except.ok.injEq]
  constructor
  · rintro ⟨_, hwhole, _, -, rfl⟩
    exact ⟨hwhole, rfl⟩
  · rintro ⟨hwhole, rfl⟩
    exact ⟨(), hwhole, (), trivial, rfl⟩

/-- What verification asks of the bytes of an archive. -/
structure ContentOk (lib : Libopus σ δ) (track : EncodedTrack) (format : Option TrackFormat)
    (bytes : List UInt8) : Prop where
  supported : supportedRates.contains track.sampleRateHz = true
  length_eq : bytes.length = track.opusBytes
  inspects : ∃ frames observed, encodedFrames track format = .ok frames ∧
    frames * (granuleRate / track.sampleRateHz) ≤ u64Max ∧
    inspectCompleteArchive lib bytes = .ok observed ∧
    observed.bytes = track.opusBytes ∧ observed.inputRateHz = track.sampleRateHz ∧
    observed.pcmSamples48k = frames * (granuleRate / track.sampleRateHz) ∧
    observed.durationMs = track.durationMs

theorem take_limit (file : DurableFile) (n : ℕ) (h : file.bytes.length = n) :
    checkedAdd n 1 = some (n + 1) ∧ file.bytes.take (n + 1) = file.bytes := by
  have hfits : n + 1 ≤ u64Max := by
    have := file.fits
    unfold maxFileBytes at this
    unfold u64Max
    omega
  refine ⟨if_pos hfits, take_of_length_le (by omega)⟩

theorem ordinaryFile_eq_ok {node : Option Node} :
    ordinaryFile node = .ok file ↔ node = some (.file file) := by
  rcases node with _ | _ | _ <;> simp [ordinaryFile]

section
variable {lib : Libopus σ δ} {format : Option TrackFormat}

theorem verifyEncodedTrack_iff_content : verifyEncodedTrack lib archives leg track format = .ok () ↔
      ∃ path file, archivePath archives leg track.file = .ok path ∧
        archives.files path leg = some (.file file) ∧ ContentOk lib track format file.bytes := by
  simp only [verifyEncodedTrack, bind_eq_ok, refuseIf_eq_ok, okOr_eq_ok, ordinaryFile_eq_ok,
    Bool.not_eq_false', decide_eq_false_iff_not, not_lt, bne_eq_false_iff_eq]
  constructor
  · rintro ⟨_, hsupported, path, hpath, frames, hframes, _, hticks, file, hfile, _, hlength, _,
      hlimit, h⟩
    obtain ⟨hchecked, htake⟩ := take_limit file _ hlength
    obtain rfl := Option.mem_unique hchecked hlimit
    rw [htake] at h
    split at h
    · cases h
    · next observed hinspect =>
      simp only [refuseIf_eq_ok, Bool.or_eq_false_iff, bne_eq_false_iff_eq] at h
      obtain ⟨⟨⟨hbytes, hrate⟩, hobserved⟩, hduration⟩ := h
      exact ⟨path, file, hpath, hfile, hsupported, hlength, frames, observed, hframes, hticks,
        hinspect, hbytes, hrate, hobserved, hduration⟩
  · rintro ⟨path, file, hpath, hfile, hsupported, hlength, frames, observed, hframes, hticks,
      hinspect, hbytes, hrate, hobserved, hduration⟩
    obtain ⟨hchecked, htake⟩ := take_limit file _ hlength
    refine ⟨(), hsupported, path, hpath, frames, hframes, (), hticks, file, hfile, (), hlength, _,
      hchecked, ?_⟩
    rw [htake, hinspect]
    simp [refuseIf, hbytes, hrate, hobserved, hduration]

/-- A failed check removes nothing. Otherwise the archive of each leg is complete and of its
    recorded length, which is that of the raw leg if there is one, and both raw legs are removed;
    the formats read are the same in every state on the way, where a crash or a removal that
    fails stops. -/
theorem discard_all_or_none (lib : Libopus σ δ) (dir : SessionDir) :
    match discardable lib dir with
    | .error e => discardPcm lib dir = ⟨.error e, dir, []⟩
    | .ok () => ∃ manifest encoded freed, dir.manifest = some manifest ∧
        manifest.encoded = some encoded ∧
        (∀ leg, verifyEncodedTrack lib dir.archives leg (encoded.of leg)
            (some ((manifest.trackFormats dir.pcm).of leg)) = .ok () ∧
          ∃ path file, dir.archives.files path leg = some (.file file) ∧
            ContentOk lib (encoded.of leg) (some ((manifest.trackFormats dir.pcm).of leg))
              file.bytes) ∧
        (∀ leg node, dir.pcm leg = some node →
          node.isFile = true ∧ node.len = (encoded.of leg).pcmBytes) ∧
        (discardPcm lib).Returns dir freed { dir with pcm := fun _ => none } ∧
        ∀ d ∈ (discardPcm lib dir).trace, (∃ pcm, d = { dir with pcm := pcm }) ∧
          manifest.trackFormats d.pcm = manifest.trackFormats dir.pcm := by
  split
  · next e hcheck =>
    simp only [discardPcm, bind, Prog.bind, Prog.read, hcheck]
  · next hcheck =>
    have hrun : discardPcm lib dir = _ := Prog.read_bind hcheck
    obtain ⟨_, hcheck⟩ := bind_rest hcheck
    obtain ⟨manifest, hmanifest, hcheck⟩ := bind_eq_ok.mp hcheck
    obtain ⟨encoded, hencoded, hcheck⟩ := bind_eq_ok.mp hcheck
    obtain ⟨_, hsystem, hcheck⟩ := bind_eq_ok.mp hcheck
    obtain ⟨_, hmic, hcheck⟩ := bind_eq_ok.mp hcheck
    obtain ⟨_, hsystemLeg, hmicLeg⟩ := bind_eq_ok.mp hcheck
    have hraw (leg : Leg) (node : Node) (hnode : dir.pcm leg = some node) :
        node.isFile = true ∧ node.len = (encoded.of leg).pcmBytes := by
      cases leg with
      | system => exact verifyRetainedLeg_eq_ok hsystemLeg hnode
      | mic => exact verifyRetainedLeg_eq_ok hmicLeg hnode
    refine ⟨manifest, encoded, _, okOr_eq_ok.mp hmanifest, okOr_eq_ok.mp hencoded, fun leg => ?_,
      hraw, ⟨congrArg Ran.result hrun, ?_⟩, fun d hd => ?_⟩
    · have hverified : verifyEncodedTrack lib dir.archives leg (encoded.of leg)
          (some ((manifest.trackFormats dir.pcm).of leg)) = .ok () := by
        cases leg with
        | system => exact hsystem
        | mic => exact hmic
      obtain ⟨path, file, -, hcontent⟩ := verifyEncodedTrack_iff_content.mp hverified
      exact ⟨hverified, path, file, hcontent⟩
    · refine (congrArg Ran.state hrun).trans (congrArg (fun pcm => { dir with pcm := pcm }) ?_)
      funext leg
      cases leg <;> rfl
    · obtain ⟨pcm, rfl, hpcm⟩ : ∃ pcm, d = { dir with pcm := pcm } ∧
          ∀ leg, pcm leg = none ∨ pcm leg = dir.pcm leg := by
        rw [hrun] at hd
        rcases List.mem_cons.mp hd with rfl | hd
        · exact ⟨_, rfl, fun leg => by cases leg; exacts [.inl rfl, .inr rfl]⟩
        · obtain rfl := List.mem_singleton.mp hd
          exact ⟨_, rfl, fun leg => .inl (by cases leg <;> rfl)⟩
      exact ⟨⟨pcm, rfl⟩, trackFormats_removed (okOr_eq_ok.mp hencoded)
        (fun leg node hnode => (hraw leg node hnode).2) hpcm⟩

/-- The name of the file is not part of its content. -/
theorem ContentOk.rename (h : ContentOk lib track format bytes) (name : String)
    : ContentOk lib { track with file := name } format bytes := by
  refine ⟨h.supported, h.length_eq, ?_⟩
  obtain ⟨frames, observed, hframes, hrest⟩ := h.inspects
  refine ⟨frames, observed, ?_, hrest⟩
  cases format with
  | none | some => exact hframes

end

/-- The record of an encode passes verification exactly if the raw leg is a whole number of
    frames and its duration is computed without wrapping. -/
theorem verifyEncodedTrack_iff (hsane : format.sane = format) {bytes : ℕ}
    (hrec : Recorded codecs format bytes track file) {path : Option String}
    (hpath : archivePath archives leg track.file = .ok path)
    (hfile : archives.files path leg = some (.file file)) :
    verifyEncodedTrack codecs.lib archives leg track (some format) = .ok () ↔
      WholeFrames format bytes ∧ DurationFits format bytes := by
  have hmem := expectedRate_mem format.sampleRateHz
  obtain ⟨-, -, hpos, hsix⟩ := rate_facts hmem
  rw [verifyEncodedTrack_iff_content]
  constructor
  · rintro ⟨_, _, -, -, -, -, frames, observed, hframes, hticks, -, -, -, hobserved, hduration⟩
    obtain ⟨hwhole, rfl⟩ := (encodedFrames_iff hsane hrec).mp hframes
    rw [CompleteArchive.durationMs, hobserved, hrec.durationMs_eq, hrec.sampleRateHz_eq,
      ticks_durationMs hmem] at hduration
    rw [hrec.sampleRateHz_eq] at hticks
    have hcount : sampleCount format bytes < 2 ^ 64 := by
      have := Nat.le_mul_of_pos_right (sampleCount format bytes) hpos
      unfold u64Max at hticks
      omega
    exact ⟨hwhole, (durationMs_iff hmem hcount).mp hduration⟩
  · rintro ⟨hwhole, hfits⟩
    obtain ⟨count, hinspect⟩ := hrec.inspects hfits
    have hticks := Nat.mul_le_mul_left (sampleCount format bytes) hsix
    unfold DurationFits at hfits
    refine ⟨path, file, hpath, hfile, ?_, hrec.opusBytes_eq.symm, _, _,
      (encodedFrames_iff hsane hrec).mpr ⟨hwhole, rfl⟩, ?_, hinspect, hrec.opusBytes_eq.symm,
      hrec.sampleRateHz_eq.symm, by rw [hrec.sampleRateHz_eq], ?_⟩
    · rw [hrec.sampleRateHz_eq]
      exact contains_iff_mem.mpr hmem
    · rw [hrec.sampleRateHz_eq]
      unfold u64Max
      omega
    · rw [CompleteArchive.durationMs, hrec.durationMs_eq, ticks_durationMs hmem]
      exact (durationMs_iff hmem (by omega)).mpr hfits

/-! ## Where the archives of a session lie -/

/-- A place the encode can write to: the directory itself, or a generation it reserved. -/
inductive Reserved (archives : ArchiveDir) : Option String → Prop
  | top : Reserved archives none
  | generation (id : ArchiveId) (h : archives.generations id.generation = some true) :
      Reserved archives (some id.generation)

theorem identityChar_ne_slash {c : Char} (h : identityChar c = true) : c ≠ '/' := by
  rintro rfl
  exact absurd h (by decide)

theorem splitOnce_append {c : Char} {xs : List Char} (h : ∀ x ∈ xs, x ≠ c) (ys : List Char) :
    splitOnce c (xs ++ c :: ys) = some (xs, ys) := by
  induction xs with
  | nil => rw [nil_append, splitOnce, if_pos rfl]
  | cons x xs ih =>
    rw [cons_append, splitOnce, if_neg (h x mem_cons_self),
      ih fun y hy => h y (mem_cons_of_mem x hy)]
    rfl

theorem stripStart_append (xs ys : List Char) : stripStart xs (xs ++ ys) = some ys := by
  induction xs with
  | nil => rfl
  | cons x xs ih => rw [cons_append, stripStart, if_pos rfl, ih]

variable (id : ArchiveId)

theorem generation_toList : id.generation.toList = ".archive-".toList ++ id.text :=
  String.toList_ofList

theorem generation_no_slash : ∀ c ∈ id.generation.toList, c ≠ '/' := by
  intro c hc
  rw [generation_toList] at hc
  rcases mem_append.mp hc with hc | hc
  · rintro rfl
    exact absurd hc (by decide)
  · exact identityChar_ne_slash (all_eq_true.mp id.chars c hc)

theorem placed_ne_opus (leg leg' : Leg) : id.generation ++ "/" ++ leg.opus ≠ leg'.opus := by
  intro h
  have hhead := congrArg (fun s : String => s.toList.head?) h
  simp only [String.toList_append, generation_toList] at hhead
  cases leg' <;> exact absurd hhead (by simp [Leg.opus])

/-- The manifest's name of an archive leads back to the place it was written to. -/
theorem archivePath_placed (hplace : Reserved archives place) (hfile : track.file = leg.opus) :
    archivePath archives leg (placed place leg track).file = .ok place := by
  cases hplace with
  | top =>
    show archivePath archives leg track.file = .ok none
    rw [archivePath, if_pos hfile]
  | generation id h =>
    have hchars : (id.generation ++ "/" ++ leg.opus).toList =
        id.generation.toList ++ '/' :: leg.opus.toList := by
      simp [String.toList_append]
    have hempty : id.text.isEmpty = false := by
      simpa using id.ne_nil
    show archivePath archives leg (id.generation ++ "/" ++ leg.opus) = .ok _
    rw [archivePath, if_neg (placed_ne_opus id leg leg), hchars,
      splitOnce_append (generation_no_slash id), okOr, ok_bind]
    dsimp only
    rw [generation_toList, stripStart_append, okOr, ok_bind, hempty, id.chars, bne_self_eq_false]
    rw [Bool.false_or, Bool.false_or, Bool.not_true, refuseIf_false, ok_bind, ← generation_toList,
      String.ofList_toList, h, okOr, ok_bind, Bool.not_true, refuseIf_false, ok_bind]

/-! ## Encoding a session -/

/-- The directory with a generation in it, if the encode needs one. -/
def SessionDir.reserved (dir : SessionDir) : Option String → SessionDir
  | none => dir
  | some generation => { dir with archives := { dir.archives with
      generations := fun g =>
        if g = generation then some true else dir.archives.generations g } }

theorem reserved_reserved (dir : SessionDir) (id : ArchiveId) :
    Reserved (dir.reserved (some id.generation)).archives (some id.generation) :=
  .generation id (if_pos rfl)

/-- The place the encode takes. -/
inductive Takes (env : EncodeEnv) (dir : SessionDir) (manifest : Manifest) : Option String → Prop
  | top (h : replaces dir manifest = false) : Takes env dir manifest none
  | fresh (h : replaces dir manifest = true) (id : ArchiveId)
      (hid : (env.ids.take 128).find? (fun id =>
        (dir.archives.generations id.generation).isNone) = some id) :
      Takes env dir manifest (some id.generation)

/-- What the encode checks before it writes anything. -/
structure Ready (dir : SessionDir) (manifest : Manifest) : Prop where
  owner : archiveOwner dir = .ok ()
  manifest_eq : readManifest dir = .ok manifest
  source : ∀ leg, checkSource manifest dir leg = .ok ()

theorem returns_liftIo {α : Type} {f : SessionDir → Except IoError α} {a : α} :
    (liftIo f).Returns dir a after ↔ f dir = .ok a ∧ dir = after := by
  rw [liftIo, returns_mapError, returns_read]

theorem returns_reserveGeneration {ids : List ArchiveId} {g : String} :
    (reserveGeneration ids).Returns dir g after ↔ ∃ id : ArchiveId,
      (ids.take 128).find? (fun id => (dir.archives.generations id.generation).isNone) = some id ∧
      id.generation = g ∧ dir.reserved (some id.generation) = after := by
  simp only [reserveGeneration, returns_bind, returns_read, returns_step, returns_pure, okOr_eq_ok]
  constructor
  · rintro ⟨id, _, ⟨hid, rfl⟩, _, _, rfl, rfl, rfl⟩
    exact ⟨id, hid, rfl, rfl⟩
  · rintro ⟨id, hid, rfl, rfl⟩
    exact ⟨id, dir, ⟨hid, rfl⟩, (), _, rfl, rfl, rfl⟩

variable {manifest : Manifest}

theorem returns_takePlace : (takePlace env.ids (replaces dir manifest)).Returns dir place after ↔
      Takes env dir manifest place ∧ after = dir.reserved place := by
  rw [takePlace]
  split
  · next hreplaces =>
    rw [returns_map]
    constructor
    · rintro ⟨g, hg, rfl⟩
      obtain ⟨id, hid, rfl, rfl⟩ := returns_reserveGeneration.mp hg
      exact ⟨.fresh hreplaces id hid, rfl⟩
    · rintro ⟨htakes, rfl⟩
      cases htakes with
      | top h => exact absurd (h.symm.trans hreplaces) (by decide)
      | fresh _ id hid =>
        exact ⟨id.generation, returns_reserveGeneration.mpr ⟨id, hid, rfl, rfl⟩, rfl⟩
  · next hreplaces =>
    rw [returns_pure]
    constructor
    · rintro ⟨rfl, rfl⟩
      exact ⟨.top (Bool.eq_false_of_not_eq_true hreplaces), rfl⟩
    · rintro ⟨htakes, rfl⟩
      cases htakes with
      | top h => exact ⟨rfl, rfl⟩
      | fresh h => exact absurd h hreplaces

variable {encoded : EncodedSession} {last : SessionDir}

theorem returns_encodeLegs {formats : SessionFormats} :
    (encodeLegs codecs env place formats).Returns dir encoded last ↔
      ∃ system mid, (encodeTrack codecs env place .system formats.system).Returns dir system mid ∧
      ∃ mic, (encodeTrack codecs env place .mic formats.mic).Returns mid mic last ∧
        encoded = ⟨placed place .system system, placed place .mic mic⟩ := by
  simp only [encodeLegs, returns_bind, returns_pure]
  constructor
  · rintro ⟨system, mid, hsystem, mic, last, hmic, rfl, rfl⟩
    exact ⟨system, mid, hsystem, mic, hmic, rfl⟩
  · rintro ⟨system, mid, hsystem, mic, hmic, rfl⟩
    exact ⟨system, mid, hsystem, mic, last, hmic, rfl, rfl⟩

theorem encodeArchives_iff : (encodeArchives codecs env).Returns dir (manifest, encoded) last ↔
      ∃ place, Ready dir manifest ∧ Takes env dir manifest place ∧
        (encodeLegs codecs env place (manifest.trackFormats dir.pcm)).Returns (dir.reserved place)
          encoded last := by
  simp only [encodeArchives, returns_bind, returns_liftIo, returns_read,
    returns_pure, returns_onError]
  constructor
  · rintro ⟨_, _, ⟨howner, rfl⟩, manifest', _, ⟨hmanifest, rfl⟩, _, _, ⟨hsystem, rfl⟩, _, _,
      ⟨hmic, rfl⟩, formats, _, ⟨hformats, rfl⟩, replacement, _, ⟨hreplacement, rfl⟩, place, mid,
      hplace, tracks, _, hlegs, hresult, rfl⟩
    cases hformats
    cases hreplacement
    cases hresult
    obtain ⟨htakes, rfl⟩ := returns_takePlace.mp hplace
    refine ⟨place, ⟨howner, hmanifest, fun leg => ?_⟩, htakes, hlegs⟩
    cases leg with
    | system => exact hsystem
    | mic => exact hmic
  · rintro ⟨place, hready, htakes, hlegs⟩
    exact ⟨(), dir, ⟨hready.owner, rfl⟩, manifest, dir, ⟨hready.manifest_eq, rfl⟩, (), dir,
      ⟨hready.source .system, rfl⟩, (), dir, ⟨hready.source .mic, rfl⟩, _, dir, ⟨rfl, rfl⟩, _, dir,
      ⟨rfl, rfl⟩, place, dir.reserved place, returns_takePlace.mpr ⟨htakes, rfl⟩, encoded, last,
      hlegs, rfl, rfl⟩

/-- An encode of a session: checks, a place, both legs, the manifest. -/
theorem encodeSession_iff : (encodeSession codecs env).Returns dir encoded after ↔
      ∃ manifest last, (encodeArchives codecs env).Returns dir (manifest, encoded) last ∧
        after = recordTracks manifest encoded last := by
  simp only [encodeSession, returns_bind, returns_pure, returns_step]
  constructor
  · rintro ⟨⟨manifest, tracks⟩, last, harchives, _, _, rfl, rfl, rfl⟩
    exact ⟨manifest, last, harchives, rfl⟩
  · rintro ⟨manifest, last, harchives, rfl⟩
    exact ⟨(manifest, encoded), last, harchives, (), _, rfl, rfl, rfl⟩

/-! ## The formats before and after -/

theorem sane_sane (f : TrackFormat) : f.sane.sane = f.sane := by
  simp [TrackFormat.sane]

theorem inferMicChannels_pos (h : 1 ≤ channels) (sysBytes micBytes : ℕ) :
    1 ≤ inferMicChannels channels sysBytes micBytes := by
  rw [inferMicChannels]
  split
  · exact le_max_right _ _
  · dsimp only
    split
    · exact le_refl 1
    · exact h

/-- Every format that is read from a manifest has a rate and a channel. -/
theorem trackFormats_sane (m : Manifest) (pcm : Leg → Option Node) (leg : Leg) :
    ((m.trackFormats pcm).of leg).sane = (m.trackFormats pcm).of leg := by
  have hglobal := sane_sane ⟨m.sampleRateHz, m.channels⟩
  have hsystem : (m.systemFormat.elim (TrackFormat.sane ⟨m.sampleRateHz, m.channels⟩)
      TrackFormat.sane).sane = m.systemFormat.elim (TrackFormat.sane ⟨m.sampleRateHz, m.channels⟩)
        TrackFormat.sane := by
    cases m.systemFormat with
    | none => exact hglobal
    | some f => exact sane_sane f
  rw [Manifest.trackFormats]
  cases leg with
  | system =>
    cases m.micFormat with
    | some mic => exact hsystem
    | none =>
      dsimp only
      split <;> exact hsystem
  | mic =>
    cases m.micFormat with
    | some mic => exact sane_sane mic
    | none =>
      dsimp only
      split
      · exact hglobal
      · have hpos := inferMicChannels_pos (le_max_right m.channels 1)
        simp only [SessionFormats.of, TrackFormat.sane, TrackFormat.mk.injEq]
        exact ⟨by simp, max_eq_left (hpos _ _)⟩

/-- The length of a raw leg; a leg that is not there has none. -/
def SessionDir.rawLength (dir : SessionDir) (leg : Leg) : ℕ := (dir.pcm leg).elim 0 Node.len

theorem putArchive_rawLength (dir : SessionDir) (place : Option String) (leg leg' : Leg)
    (file : DurableFile) :
    (dir.putArchive place leg file).rawLength leg' = dir.rawLength leg' := rfl

/-- A leg that passed the check is an ordinary file, or was never recorded. -/
theorem rawLeg_of_checkSource (h : checkSource manifest dir leg = .ok ()) :
    (∃ bytes, RawLeg (dir.pcm leg) bytes) ∧
      (dir.pcm leg = none → (manifest.encoded.elim 0 fun e => (e.of leg).pcmBytes) = 0) := by
  rw [checkSource] at h
  split at h
  · exact (error_ne_ok h).elim
  cases hpcm : dir.pcm leg with
  | some node =>
    rw [hpcm] at h
    cases node with
    | file contents => exact ⟨⟨contents.bytes, .file contents⟩, nofun⟩
    | other length => exact (error_ne_ok h).elim
  | none =>
    rw [hpcm] at h
    dsimp only at h
    split at h
    · next hmin =>
      exact ⟨⟨[], .none⟩, fun _ => hmin.2.1⟩
    · exact (error_ne_ok h).elim

/-- The new record says about a missing leg what the old one said, so the legs are read the
    same way afterwards. -/
theorem trackFormats_encoded {m : Manifest} {pcm : Leg → Option Node}
    (hold : ∀ leg, pcm leg = none → (m.encoded.elim 0 fun e => (e.of leg).pcmBytes) = 0)
    (hnew : ∀ leg, (encoded.of leg).pcmBytes = (pcm leg).elim 0 Node.len) :
    Manifest.trackFormats { m with encoded := some encoded } pcm = m.trackFormats pcm := by
  have hbytes : Manifest.legBytes { m with encoded := some encoded } pcm = m.legBytes pcm := by
    funext leg
    simp only [Manifest.legBytes]
    cases hpcm : pcm leg with
    | some node => rfl
    | none =>
      have hzero := hnew leg
      rw [hpcm] at hzero
      exact hzero.trans (hold leg hpcm).symm
  simp only [Manifest.trackFormats, hbytes]

/-! ## What an encode leaves behind -/

/-- An archive on disk and the record of it. -/
structure Archived (codecs : Codecs σ δ φ ρ) (after : SessionDir) (leg : Leg)
    (format : TrackFormat) (bytes : ℕ) (track : EncodedTrack) : Prop where
  exists_file : ∃ file path, Recorded codecs format bytes track file ∧
    archivePath after.archives leg track.file = .ok path ∧
    after.archives.files path leg = some (.file file)

theorem Recorded.placed {bytes : ℕ} (h : Recorded codecs format bytes track file)
    (place : Option String) (leg : Leg) :
    Recorded codecs format bytes (placed place leg track) file := by
  cases place with
  | none => exact h
  | some g =>
    exact { h with }

theorem Takes.reserved (h : Takes env dir manifest place) :
    Reserved (dir.reserved place).archives place := by
  cases h with
  | top _ => exact .top
  | fresh _ id _ => exact reserved_reserved dir id

section
variable (dir : SessionDir) (place : Option String)

theorem reserved_pcm : (dir.reserved place).pcm = dir.pcm := by
  cases place <;> rfl

theorem reserved_captureOwner : (dir.reserved place).captureOwner = dir.captureOwner := by
  cases place <;> rfl

end

theorem Reserved.putArchive (h : Reserved dir.archives place) (p : Option String) (leg : Leg)
    (file : DurableFile) : Reserved (dir.putArchive p leg file).archives place := by
  cases h with
  | top => exact .top
  | generation id hid => exact .generation id hid

/-- The encode of a leg leaves a record that describes the archive. -/
theorem encodeTrack_recorded (laws : Lawful codecs) (hsane : format.sane = format)
    (hraw : ∃ bytes, RawLeg (dir.pcm leg) bytes)
    (h : (encodeTrack codecs env place leg format).Returns dir track after) :
    track.file = leg.opus ∧ ∃ file, Recorded codecs format (dir.rawLength leg) track file ∧
      after = dir.putArchive place leg file := by
  obtain ⟨bytes, hpcm⟩ := hraw
  obtain ⟨stats, packets, hok, hroom, rfl, rfl⟩ := encodeTrack_iff.mp h
  refine ⟨rfl, _, ?_, rfl⟩
  rw [rawLength, hpcm.length_eq]
  have hrec := recorded_encode laws env hsane hpcm hok (archiveFile_bytes hroom) rfl
  rw [hpcm.length_eq] at hrec
  exact hrec

/-- After an encode: the raw legs as they were, a manifest with the new records, and for each
    leg the archive its record describes. -/
structure Leaves (codecs : Codecs σ δ φ ρ) (dir after : SessionDir) (manifest : Manifest)
    (encoded : EncodedSession) : Prop where
  pcm_eq : after.pcm = dir.pcm
  captureOwner_eq : after.captureOwner = dir.captureOwner
  manifest_eq : after.manifest = some { manifest with encoded := some encoded }
  archived : ∀ leg, Archived codecs after leg ((manifest.trackFormats dir.pcm).of leg)
    (dir.rawLength leg) (encoded.of leg)

theorem encodeSession_leaves (laws : Lawful codecs)
    (h : (encodeSession codecs env).Returns dir encoded after) :
    ∃ manifest, Ready dir manifest ∧ Leaves codecs dir after manifest encoded := by
  obtain ⟨manifest, last, harchives, rfl⟩ := encodeSession_iff.mp h
  obtain ⟨place, hready, htakes, hlegs⟩ := encodeArchives_iff.mp harchives
  obtain ⟨system, mid, hsystem, mic, hmic, rfl⟩ := returns_encodeLegs.mp hlegs
  have hsane := trackFormats_sane manifest dir.pcm
  have hraw : ∀ leg, ∃ bytes, RawLeg ((dir.reserved place).pcm leg) bytes := by
    intro leg
    rw [reserved_pcm]
    exact (rawLeg_of_checkSource (hready.source leg)).1
  obtain ⟨hsysfile, sysfile, hsysrec, rfl⟩ :=
    encodeTrack_recorded laws (hsane .system) (hraw .system) hsystem
  have hrawmic : ∃ bytes, RawLeg (((dir.reserved place).putArchive place .system sysfile).pcm .mic)
      bytes := hraw .mic
  obtain ⟨hmicfile, micfile, hmicrec, rfl⟩ :=
    encodeTrack_recorded laws (hsane .mic) hrawmic hmic
  have hlength : ∀ leg, (dir.reserved place).rawLength leg = dir.rawLength leg := by
    intro leg
    rw [rawLength, reserved_pcm]
    rfl
  have hplace := (htakes.reserved.putArchive place .system sysfile).putArchive place .mic micfile
  refine ⟨manifest, hready, reserved_pcm dir place, reserved_captureOwner dir place, rfl,
    fun leg => ?_⟩
  cases leg with
  | system =>
    rw [hlength] at hsysrec
    refine ⟨sysfile, place, hsysrec.placed place .system, archivePath_placed hplace hsysfile, ?_⟩
    show (if place = place ∧ Leg.system = .mic then _ else
      if place = place ∧ Leg.system = .system then _ else _) = _
    rw [if_neg (by simp), if_pos ⟨rfl, rfl⟩]
  | mic =>
    rw [putArchive_rawLength, hlength] at hmicrec
    refine ⟨micfile, place, hmicrec.placed place .mic, archivePath_placed hplace hmicfile, ?_⟩
    exact if_pos ⟨rfl, rfl⟩

/-! ## Verification and discard of what was encoded -/

theorem Archived.verifies_iff (hsane : format.sane = format) {bytes : ℕ}
    (h : Archived codecs after leg format bytes track) :
    verifyEncodedTrack codecs.lib after.archives leg track (some format) = .ok () ↔
      WholeFrames format bytes ∧ DurationFits format bytes := by
  obtain ⟨file, path, hrec, hpath, hfile⟩ := h.exists_file
  exact verifyEncodedTrack_iff hsane hrec hpath hfile

theorem Archived.pcmBytes_eq {bytes : ℕ} (h : Archived codecs after leg format bytes track) :
    track.pcmBytes = bytes := by
  obtain ⟨file, path, hrec, -, -⟩ := h.exists_file
  exact hrec.pcmBytes_eq

section
variable (hready : Ready dir manifest) (h : Leaves codecs dir after manifest encoded)
include hready h

/-- The raw legs an encode read are the ones its records describe. -/
theorem Leaves.verifyRetainedPcm : verifyRetainedPcm after encoded = .ok () := by
  have hleg : ∀ leg, verifyRetainedLeg after leg (encoded.of leg) = .ok () := by
    intro leg
    obtain ⟨⟨bytes, hraw⟩, -⟩ := rawLeg_of_checkSource (hready.source leg)
    have hbytes := (h.archived leg).pcmBytes_eq
    rw [rawLength] at hbytes
    rw [verifyRetainedLeg, h.pcm_eq]
    generalize dir.pcm leg = pcm at hraw hbytes
    cases hraw with
    | none => rfl
    | file contents =>
      refine if_pos ?_
      rw [hbytes]
      exact beq_self_eq_true _
  have hsystem : verifyRetainedLeg after .system encoded.system = .ok () := hleg .system
  have hmic : verifyRetainedLeg after .mic encoded.mic = .ok () := hleg .mic
  rw [Wal.verifyRetainedPcm, hsystem, ok_bind, hmic]

theorem Leaves.trackFormats_eq :
    Manifest.trackFormats { manifest with encoded := some encoded } after.pcm =
      manifest.trackFormats dir.pcm := by
  rw [h.pcm_eq]
  exact trackFormats_encoded (fun leg => (rawLeg_of_checkSource (hready.source leg)).2)
    fun leg => (h.archived leg).pcmBytes_eq

/-- The two legs of an encode pass verification together exactly if the raw legs can be
    discarded. -/
theorem Leaves.discardable_iff : discardable codecs.lib after = .ok () ↔
      ∀ leg, verifyEncodedTrack codecs.lib after.archives leg (encoded.of leg)
        (some ((manifest.trackFormats dir.pcm).of leg)) = .ok () := by
  have howner : archiveOwner after = .ok () := by
    rw [archiveOwner, h.captureOwner_eq]
    exact hready.owner
  have hmanifest : readManifest after = .ok { manifest with encoded := some encoded } := by
    rw [readManifest, h.manifest_eq]
    rfl
  have hformats := h.trackFormats_eq hready
  rw [discardable, howner, ok_bind, hmanifest, ok_bind]
  rw [show okOr (some encoded) _ = Except.ok encoded from rfl, ok_bind]
  dsimp only
  rw [hformats]
  constructor
  · intro hok leg
    obtain ⟨_, hsystem, hok⟩ := bind_eq_ok.mp hok
    obtain ⟨_, hmic, -⟩ := bind_eq_ok.mp hok
    cases leg with
    | system => exact hsystem
    | mic => exact hmic
  · intro hall
    have hsystem : verifyEncodedTrack codecs.lib after.archives .system encoded.system
        (some (manifest.trackFormats dir.pcm).system) = .ok () := hall .system
    have hmic : verifyEncodedTrack codecs.lib after.archives .mic encoded.mic
        (some (manifest.trackFormats dir.pcm).mic) = .ok () := hall .mic
    rw [hsystem, ok_bind, hmic, ok_bind, h.verifyRetainedPcm hready]

end

/-- An encode that may start, of legs at rates it takes and of lengths it can count, returns. -/
theorem encodeSession_total (laws : Lawful codecs) (hready : Ready dir manifest)
    (hplace : ∃ place, Takes env dir manifest place)
    (hlegs : ∀ leg, Accepted ((manifest.trackFormats dir.pcm).of leg).sampleRateHz ∧
      DurationFits ((manifest.trackFormats dir.pcm).of leg) (dir.rawLength leg)) :
    ∃ encoded after, (encodeSession codecs env).Returns dir encoded after := by
  obtain ⟨place, htakes⟩ := hplace
  have htrack : ∀ leg (d : SessionDir), d.pcm = dir.pcm → ∃ track after,
      (encodeTrack codecs env place leg ((manifest.trackFormats dir.pcm).of leg)).Returns
        d track after ∧ after.pcm = dir.pcm := by
    intro leg d hd
    obtain ⟨⟨bytes, hraw⟩, -⟩ := rawLeg_of_checkSource (hready.source leg)
    obtain ⟨hrate, hfits⟩ := hlegs leg
    rw [rawLength, hraw.length_eq] at hfits
    obtain ⟨stats, packets, hok, -, -, hroom⟩ := encodePcm_ok laws env.reads
      (trackFormats_sane manifest dir.pcm leg) hrate hraw (env.serial_lt leg)
    rw [← congrFun hd leg] at hok
    exact ⟨_, _, encodeTrack_iff.mpr ⟨stats, packets, hok, (hroom hfits).1, rfl, rfl⟩, hd⟩
  obtain ⟨system, mid, hsystem, hmid⟩ := htrack .system _ (reserved_pcm dir place)
  obtain ⟨mic, last, hmic, -⟩ := htrack .mic mid hmid
  exact ⟨_, _, encodeSession_iff.mpr ⟨manifest, last, encodeArchives_iff.mpr ⟨place, hready, htakes,
    returns_encodeLegs.mpr ⟨system, mid, hsystem, mic, hmic, rfl⟩⟩, rfl⟩⟩

/-! ## A codec and a converter of the assumed kind -/

/-- One byte a packet, and the lookahead of the real encoder: 6.5 ms. -/
def briefOpus : Libopus ℕ Unit where
  encoderCreate rate := .ok rate
  lookahead rate := (rate * 13 / 2000 : ℕ)
  encode rate _ := (.ok [0xf8], rate)
  decoderCreate := .ok ()
  decode _ _ := (960, ())

def briefOpusWorks (rate : ℕ) (hrate : rate ∈ supportedRates) : briefOpus.Works rate where
  follows e _ := e = rate
  enc := rate
  dec := ()
  encoderCreate_eq := rfl
  decoderCreate_eq := rfl
  follows_start := rfl
  lookahead_nonneg := Int.natCast_nonneg _
  preSkip_fits := by
    rw [mem_supportedRates] at hrate
    rcases hrate with rfl | rfl | rfl | rfl | rfl <;> decide
  encode_frame e d he frame _ := ⟨[0xf8], rate, (), by rw [he]; rfl, by simp, by decide, rfl, rfl⟩

def intPcm : Pcm ℤ where
  ofI16 := Int16.toInt
  mean xs := xs.sum / xs.length
  toI16 := Int16.ofInt
  finite _ := true
  ofI16_finite _ := rfl
  mean_finite _ := rfl

/-- A converter that holds everything back until the end. -/
def lateResampler : Resampler ℤ (ℕ × ℕ) where
  new rate := (rate, 0)
  process st block := .ok ([], (st.1, st.2 + block.length))
  finish st := .ok (List.replicate (st.2 * targetRate / st.1) 0)

theorem lateResampler_processAll (rate count : ℕ) (blocks : List (List ℤ)) :
    lateResampler.processAll (rate, count) blocks =
      .ok (0, (rate, count + blocks.flatten.length)) := by
  induction blocks generalizing count with
  | nil => rfl
  | cons block blocks ih =>
    have hstep : lateResampler.process (rate, count) block =
        .ok ([], (rate, count + block.length)) := rfl
    rw [Resampler.processAll, hstep, ok_bind]
    dsimp only
    rw [ih, ok_bind, flatten_cons, length_append, add_assoc]
    rfl

theorem lateResampler_works : lateResampler.Works intPcm where
  total rate _ _ blocks _ _ := by
    refine ⟨0, _, _, lateResampler_processAll rate 0 blocks, rfl, ?_⟩
    rw [length_replicate, zero_add, zero_add]

def briefCodecs : Codecs ℕ Unit ℤ (ℕ × ℕ) := ⟨briefOpus, .filling, intPcm, lateResampler⟩

def briefCodecsLawful : Lawful briefCodecs := ⟨briefOpusWorks, lateResampler_works⟩

/-- Every read returns one byte. -/
def byteReads (bytes : List UInt8) : Reads bytes where
  blocks := bytes.map fun b => [b]
  flatten_eq := by
    induction bytes with
    | nil => rfl
    | cons b bytes ih => rw [List.map_cons, List.flatten_cons, ih]; rfl
  ne_nil block h := by
    obtain ⟨b, -, rfl⟩ := List.mem_map.mp h
    exact List.cons_ne_nil _ _

/-- A session that was closed with this much system audio and no microphone. -/
def stoppedSession (system : List UInt8) : SessionDir where
  manifest := some ⟨"01J", 16000, 1, 4, none, none, some 1000, none, none, none⟩
  pcm leg := match leg with
    | .system => some (.file (archiveFile system))
    | .mic => none
  archives := ⟨fun _ _ => none, fun _ => none⟩
  captureOwner := .free
  streams _ := ⟨⟨none, none, none, none, none⟩, none⟩
  coverageOwned _ := false

def stoppedManifest : Manifest := ⟨"01J", 16000, 1, 4, none, none, some 1000, none, none, none⟩

theorem stoppedSession_ready (system : List UInt8) :
    Ready (stoppedSession system) stoppedManifest where
  owner := rfl
  manifest_eq := rfl
  source leg := by
    cases leg with
    | system => simp [checkSource, stoppedSession, stoppedManifest, Node.isFile]
    | mic => rfl

def firstEnv : EncodeEnv := ⟨fun _ => 1, fun _ => by decide, [], byteReads⟩

theorem stoppedSession_takes (system : List UInt8) :
    Takes firstEnv (stoppedSession system) stoppedManifest none := .top rfl

/-! ## The records pass verification or not -/

/-- The raw leg is a whole number of frames and its duration can be counted. -/
def Verifiable (formats : SessionFormats) (dir : SessionDir) (leg : Leg) : Prop :=
  WholeFrames (formats.of leg) (dir.rawLength leg) ∧
    DurationFits (formats.of leg) (dir.rawLength leg)

/-- An encode of legs at rates it takes returns records. The record of a leg passes the
    verification exactly if the raw leg is a whole number of frames whose duration can be
    counted, and the raw legs can be discarded exactly if both are. -/
theorem encode_verifies_iff (laws : Lawful codecs) (env : EncodeEnv) (dir : SessionDir)
    (manifest : Manifest) (hready : Ready dir manifest) :
    ((∃ place, Takes env dir manifest place) →
      (∀ leg, Accepted ((manifest.trackFormats dir.pcm).of leg).sampleRateHz ∧
        DurationFits ((manifest.trackFormats dir.pcm).of leg) (dir.rawLength leg)) →
      ∃ encoded after, (encodeSession codecs env).Returns dir encoded after) ∧
    ∀ encoded after, (encodeSession codecs env).Returns dir encoded after →
      (∀ leg, verifyEncodedTrack codecs.lib after.archives leg (encoded.of leg)
          (some ((manifest.trackFormats dir.pcm).of leg)) = .ok () ↔
        Verifiable (manifest.trackFormats dir.pcm) dir leg) ∧
      (discardable codecs.lib after = .ok () ↔
        ∀ leg, Verifiable (manifest.trackFormats dir.pcm) dir leg) := by
  refine ⟨fun hplace hlegs => encodeSession_total laws hready hplace hlegs, ?_⟩
  intro encoded after hreturns
  obtain ⟨manifest', hready', hleaves⟩ := encodeSession_leaves laws hreturns
  obtain rfl : manifest' = manifest :=
    Except.ok.inj (hready'.manifest_eq.symm.trans hready.manifest_eq)
  have hverify : ∀ leg, verifyEncodedTrack codecs.lib after.archives leg (encoded.of leg)
      (some ((manifest'.trackFormats dir.pcm).of leg)) = .ok () ↔
        Verifiable (manifest'.trackFormats dir.pcm) dir leg := fun leg =>
    (hleaves.archived leg).verifies_iff (trackFormats_sane manifest' dir.pcm leg)
  refine ⟨hverify, (hleaves.discardable_iff hready).trans ?_⟩
  exact forall_congr' hverify

/-- A sample of one frame. -/
theorem encode_verifies_one_frame : Ready (stoppedSession [0, 0]) stoppedManifest ∧
    ∃ encoded after, (encodeSession briefCodecs firstEnv).Returns (stoppedSession [0, 0])
      encoded after ∧ discardable briefOpus after = .ok () := by
  have hready := stoppedSession_ready [0, 0]
  obtain ⟨htotal, hiff⟩ := encode_verifies_iff briefCodecsLawful firstEnv _ _ hready
  obtain ⟨encoded, after, hreturns⟩ := htotal ⟨none, stoppedSession_takes _⟩
    (fun leg => by cases leg <;> exact ⟨.inl (by decide), by decide⟩)
  refine ⟨hready, encoded, after, hreturns, (hiff encoded after hreturns).2.mpr fun leg => ?_⟩
  cases leg <;> exact ⟨by decide, by decide⟩

/-- One byte of a torn frame: the encode drops it and records a length that includes it. -/
theorem encode_torn_frame_refused :
    ∃ encoded after, (encodeSession briefCodecs firstEnv).Returns (stoppedSession [0])
      encoded after ∧
      verifyEncodedTrack briefOpus after.archives .system encoded.system (some ⟨16000, 1⟩) ≠
        .ok () ∧
      discardable briefOpus after ≠ .ok () := by
  have hready := stoppedSession_ready [0]
  obtain ⟨encoded, after, hreturns⟩ := encodeSession_total briefCodecsLawful hready
    ⟨none, stoppedSession_takes _⟩
    (fun leg => by cases leg <;> exact ⟨.inl (by decide), by decide⟩)
  obtain ⟨manifest, hready', hleaves⟩ := encodeSession_leaves briefCodecsLawful hreturns
  obtain rfl : manifest = stoppedManifest :=
    Except.ok.inj (hready'.manifest_eq.symm.trans hready.manifest_eq)
  have hrefused : ¬ verifyEncodedTrack briefOpus after.archives .system encoded.system
      (some ⟨16000, 1⟩) = .ok () := by
    intro hok
    have hwhole := ((hleaves.archived .system).verifies_iff
      (trackFormats_sane stoppedManifest (stoppedSession [0]).pcm .system)).mp hok
    exact absurd hwhole.1 (by decide)
  exact ⟨encoded, after, hreturns, hrefused, fun hok =>
    hrefused ((hleaves.discardable_iff hready).mp hok .system)⟩

end

end FlyOnTheWall.Wal
