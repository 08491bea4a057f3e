/-
  What the archive writer writes, and that the inspector accepts it.

  * `Spoken`: packets a fresh decoder turns into 960 samples each, with the granule position
    counting them.
  * `encodeFrame_ok` is the step; `drainFullFrames_ok` and `pushI16_ok` carry it through a push
    of any size, `finishFrames_ok` through the closing frames.
  * `finish_ok`: the packets of a closed stream, and that its last granule position lies
    within the decoded audio.
  * `inspect_archive`: the inspector reads the number of pushed samples back.
-/
import FlyOnTheWall.Pipeline.OpusStream

namespace FlyOnTheWall.Opus
open Lib Lib.Ogg List Writer

variable {σ δ : Type} {lib : Libopus σ δ} {rate : ℕ}

/-! ## Rates -/

theorem rate_facts (h : rate ∈ supportedRates) :
    rate * frameMs / 1000 * (granuleRate / rate) = 960 ∧
      granuleRate / rate * rate = granuleRate ∧ 0 < granuleRate / rate ∧
      granuleRate / rate ≤ 6 := by
  rw [mem_supportedRates] at h
  rcases h with rfl | rfl | rfl | rfl | rfl <;> decide

/-! ## Packets -/

inductive Spoken (lib : Libopus σ δ) (start : δ) : List Packet → δ → Prop
  | nil : Spoken lib start [] start
  | snoc {ps d d' p} (before : Spoken lib start ps d) (ne : p.data ≠ [])
      (fits : p.data.length ≤ maxPacketBytes) (granule : p.granule = u64 (960 * (ps.length + 1)))
      (more : p.finish ≠ .endStream) (decodes : lib.decode d p.data = (960, d')) :
      Spoken lib start (ps ++ [p]) d'

variable {start : δ} {ps : List Packet} {d : δ}

theorem Spoken.fits_all (h : Spoken lib start ps d) : ∀ p ∈ ps, p.data.length ≤ maxPacketBytes := by
  induction h with
  | nil => simp
  | snoc _ _ fits _ _ _ ih =>
    intro p hp
    rcases mem_append.mp hp with hp | hp
    · exact ih p hp
    · rw [mem_singleton.mp hp]
      exact fits

variable {final n serial : ℕ}

/-- Spoken packets in front of more speech. -/
theorem Spoken.speech {total : ℕ} {rest : List Segment} (h : Spoken lib start ps d)
    (hcount : 960 * ps.length < 2 ^ 64) (hrest : Speech lib final total d [] ps.length rest) :
    Speech lib final total start [] 0 (ps.flatMap Packet.segments ++ rest) := by
  induction h generalizing rest with
  | nil => exact hrest
  | @snoc ps d d' p before ne fits granule more decodes ih =>
    rw [length_append, length_singleton] at hrest hcount
    have hgranule : p.granule = 960 * (ps.length + 1) := by
      rw [granule, u64]
      exact Nat.mod_eq_of_lt hcount
    have hpacket : Speech lib final total d [] ps.length (p.segments ++ rest) := by
      refine Speech.of_segmentsOf (by simpa using fits) fun acc body hbody hshort => ?_
      refine .packet (by rw [hgranule]) more hshort ?_ ?_ ?_ hrest
      · rw [← length_append, hbody]
        exact fits
      · rwa [hbody]
      · rwa [hbody]
    have hflat : (ps ++ [p]).flatMap Packet.segments ++ rest =
        ps.flatMap Packet.segments ++ (p.segments ++ rest) := by
      simp [append_assoc]
    rw [hflat]
    exact ih (by omega) hpacket

/-- The audio packets of a closed stream: `ps` and then `last`. -/
structure Closed (lib : Libopus σ δ) (start : δ) (final : ℕ) (ps : List Packet) (last : Packet) :
    Prop where
  decodes : ∃ d d', Spoken lib start ps d ∧ lib.decode d last.data = (960, d')
  ne : last.data ≠ []
  fits : last.data.length ≤ maxPacketBytes
  granule_eq : last.granule = final
  finish_eq : last.finish = .endStream

variable {last : Packet}

theorem Closed.speech (h : Closed lib start final ps last) (hcount : 960 * ps.length < 2 ^ 64) :
    Speech lib final (ps.length + 1) start [] 0 ((ps ++ [last]).flatMap Packet.segments) := by
  obtain ⟨d, d', hspoken, hdecode⟩ := h.decodes
  have hlast : Speech lib final (ps.length + 1) d [] ps.length (last.segments ++ []) := by
    refine Speech.of_segmentsOf (by simpa using h.fits) fun acc body hbody hshort => ?_
    rw [nil_append] at hbody
    rw [← hbody] at hdecode
    refine .last (by rw [h.granule_eq, h.finish_eq]) hshort ?_ ?_ hdecode rfl
    · rw [← length_append, hbody]
      exact h.fits
    · rw [hbody]
      exact h.ne
  have hflat : (ps ++ [last]).flatMap Packet.segments =
      ps.flatMap Packet.segments ++ (last.segments ++ []) := by
    simp
  rw [hflat]
  exact hspoken.speech hcount hlast

/-! ## The writer's state -/

namespace Writer

/-- The fields no frame changes. -/
structure Config (rate skip : ℕ) (w : Writer σ) : Prop where
  sampleRateHz_eq : w.sampleRateHz = rate
  frameSamples_eq : w.frameSamples = rate * frameMs / 1000
  granulePerSample_eq : w.granulePerSample = granuleRate / rate
  preSkip_eq : w.preSkip = skip

variable (works : lib.Works rate)

/-- The number of ticks the decoder discards. -/
def skipOf : ℕ := (lib.lookahead works.enc).toNat * (granuleRate / rate)

def headersOf (skip rate : ℕ) : List Packet :=
  [⟨opusHead 1 skip rate, 0, .endPage⟩, ⟨opusTags, 0, .endPage⟩]

/-- The audio packets handed over so far, and the decoder that has seen them. -/
structure Voiced (ps : List Packet) (d : δ) (w : Writer σ) : Prop where
  config : Config rate (skipOf works) w
  ogg_eq : w.ogg = headersOf (skipOf works) rate ++ ps
  spoken : Spoken lib works.dec ps d
  follows : works.follows w.enc d
  packets_eq : w.packets = u64 ps.length

/-- `n` samples were pushed. -/
structure Holds (n : ℕ) (ps : List Packet) (d : δ) (w : Writer σ) : Prop where
  voiced : Voiced works ps d w
  inputSamples_eq : w.inputSamples = u64 n
  count : ps.length * w.frameSamples + w.pending.length = n

section Steps
variable {works : lib.Works rate} {w : Writer σ} {ps : List Packet} {d : δ} {n : ℕ}

theorem u64_add_one (k : ℕ) : u64 (u64 k + 1) = u64 (k + 1) := by
  unfold u64
  omega

variable {frame : List Int16}

section
variable (hw : Voiced works ps d w) (hframe : frame.length = w.frameSamples)
include hw hframe

theorem encodeFrame_ok (finish : EndInfo) (granule : ℕ) :
    ∃ packet w' d', w.encodeFrame lib frame finish granule = .ok w' ∧
      packet ≠ [] ∧ packet.length ≤ maxPacketBytes ∧ lib.decode d packet = (960, d') ∧
      works.follows w'.enc d' ∧ w'.ogg = w.ogg ++ [⟨packet, granule, finish⟩] ∧
      w'.packets = u64 (ps.length + 1) ∧ Config rate (skipOf works) w' ∧
      w'.pending = w.pending ∧ w'.inputSamples = w.inputSamples := by
  have hlen : frame.length = rate * frameMs / 1000 := hframe.trans hw.config.frameSamples_eq
  obtain ⟨packet, e', d', hencode, hne, hfits, hdecode, hfollows⟩ :=
    works.encode_frame w.enc d hw.follows frame hlen
  have hok : w.encodeFrame lib frame finish granule =
      .ok (w.handOver e' packet finish granule) := by
    rw [encodeFrame, hencode]
  refine ⟨packet, _, d', hok, hne, hfits, hdecode, hfollows, rfl, ?_, ?_, rfl, rfl⟩
  · show u64 (w.packets + 1) = u64 (ps.length + 1)
    rw [hw.packets_eq, u64_add_one]
  · exact { hw.config with }

theorem encodeFrame_more {finish : EndInfo} (hfinish : finish ≠ .endStream) {granule : ℕ}
    (hgranule : granule = u64 (960 * (ps.length + 1))) :
    ∃ p w' d', w.encodeFrame lib frame finish granule = .ok w' ∧ Voiced works (ps ++ [p]) d' w' ∧
      w'.pending = w.pending ∧ w'.inputSamples = w.inputSamples := by
  obtain ⟨packet, w', d', hok, hne, hfits, hdecode, hfollows, hogg, hpackets, hconfig, hpending,
    hinput⟩ := encodeFrame_ok hw hframe finish granule
  refine ⟨⟨packet, granule, finish⟩, w', d', hok, ⟨hconfig, ?_, ?_, hfollows, ?_⟩, hpending, hinput⟩
  · rw [hogg, hw.ogg_eq, append_assoc]
  · exact .snoc hw.spoken hne hfits hgranule hfinish hdecode
  · rw [hpackets, length_append, length_singleton]

end

theorem frameEnd_ne (w : Writer σ) : w.frameEnd ≠ .endStream := by
  rw [frameEnd]
  split <;> exact EndInfo.noConfusion

/-- The wrapped counters still give the tick count of the frame, up to wrapping. -/
theorem consumed_granule {input pending consumed g : ℕ} (h : consumed + pending = input) :
    u64 (u64 (u64 input + (2 ^ 64 - pending % 2 ^ 64)) * g) = u64 (consumed * g) := by
  have hmod : (u64 input + (2 ^ 64 - pending % 2 ^ 64)) % 2 ^ 64 = consumed % 2 ^ 64 := by
    unfold u64
    omega
  unfold u64 at hmod ⊢
  rw [hmod, Nat.mul_mod, Nat.mod_mod, ← Nat.mul_mod]

section
variable (hrate : rate ∈ supportedRates) (hw : Holds works n ps d w)
include hrate hw

theorem drainOne_ok (hfull : w.frameSamples ≤ w.pending.length) :
    ∃ p w' d', w.drainOne lib = .ok w' ∧ Holds works n (ps ++ [p]) d' w' := by
  have hcount := hw.count
  have hconfig := hw.voiced.config
  have hframe : (w.pending.take w.frameSamples).length = w.frameSamples := by
    rw [length_take]
    omega
  have hdrop : (w.pending.drop w.frameSamples).length = w.pending.length - w.frameSamples :=
    length_drop
  have hsum : (ps.length + 1) * w.frameSamples + (w.pending.drop w.frameSamples).length = n := by
    rw [add_mul]
    omega
  have hgranule : u64 (consumedSamples { w with pending := w.pending.drop w.frameSamples } *
      w.granulePerSample) = u64 (960 * (ps.length + 1)) := by
    rw [consumedSamples, hw.inputSamples_eq, consumed_granule hsum,
      hconfig.granulePerSample_eq, hconfig.frameSamples_eq, mul_assoc,
      (rate_facts hrate).1, mul_comm]
  have hvoiced : Voiced works ps d { w with pending := w.pending.drop w.frameSamples } :=
    { hw.voiced with config := { hconfig with } }
  obtain ⟨p, w', d', hok, hvoiced', hpending, hinput⟩ :=
    encodeFrame_more hvoiced hframe
      (frameEnd_ne { w with pending := w.pending.drop w.frameSamples }) hgranule
  have hframes : w'.frameSamples = w.frameSamples := by
    rw [hvoiced'.config.frameSamples_eq, hconfig.frameSamples_eq]
  refine ⟨p, w', d', hok, hvoiced', hinput.trans hw.inputSamples_eq, ?_⟩
  rw [length_append, length_singleton, hframes, hpending, hsum]

/-- The loop of the writer, by induction on what is waiting. -/
theorem drainFullFrames_ok : ∃ w' ps' d', w.drainFullFrames lib = .ok w' ∧ Holds works n ps' d' w' ∧
      w'.pending.length < w'.frameSamples := by
  induction hlen : w.pending.length using Nat.strongRecOn generalizing w ps d with
  | ind m ih =>
    subst hlen
    have hpos := w.frameSamples_pos
    by_cases hfull : w.frameSamples ≤ w.pending.length
    · obtain ⟨p, w1, d1, hone, hholds⟩ := drainOne_ok hrate hw hfull
      have hless : w1.pending.length < w.pending.length := by
        rw [drainOne_pending lib hone, length_drop]
        omega
      rw [drainFullFrames_step lib hfull hone]
      exact ih _ hless hholds rfl
    · have hshort : w.pending.length < w.frameSamples := by omega
      exact ⟨w, ps, d, drainFullFrames_stop lib hshort, hw, hshort⟩

theorem pushI16_ok (pcm : List Int16) :
    ∃ w' ps' d', w.pushI16 lib pcm = .ok w' ∧ Holds works (n + pcm.length) ps' d' w' ∧
      w'.pending.length < w'.frameSamples := by
  have hcount := hw.count
  have hconfig := hw.voiced.config
  refine drainFullFrames_ok hrate ⟨{ hw.voiced with config := { hconfig with } }, ?_, ?_⟩
  · show u64 (w.inputSamples + pcm.length) = u64 (n + pcm.length)
    rw [hw.inputSamples_eq]
    unfold u64
    omega
  · show ps.length * w.frameSamples + (w.pending ++ pcm).length = n + pcm.length
    rw [length_append]
    omega

end

theorem create_ok (works : lib.Works rate) (hrate : rate ∈ supportedRates) :
    ∃ w : Writer σ, create lib rate = .ok w ∧ Holds works 0 [] works.dec w ∧
      w.pending.length < w.frameSamples := by
  have hfits := works.preSkip_fits
  have hskip : u64 ((max (lib.lookahead works.enc) 0).toNat * (granuleRate / rate)) =
      skipOf works := by
    rw [Int.max_eq_left works.lookahead_nonneg, u64, skipOf]
    exact Nat.mod_eq_of_lt (by omega)
  have hmod : skipOf works % 2 ^ 16 = skipOf works := Nat.mod_eq_of_lt hfits
  rw [create, dif_pos hrate, works.encoderCreate_eq, ok_bind]
  refine ⟨_, rfl, ⟨⟨⟨rfl, rfl, rfl, hskip⟩, ?_, .nil, works.follows_start, rfl⟩, rfl, ?_⟩, ?_⟩
  · show [(⟨opusHead 1 (u64 _ % 2 ^ 16) rate, 0, .endPage⟩ : Packet), _] = _
    rw [hskip, hmod]
    rfl
  · exact zero_mul _
  · exact frameSamples_pos_of_mem hrate

/-- The closing frames: all but the last continue the stream. -/
theorem finishFrames_ok (hrate : rate ∈ supportedRates) (finalGranule left : ℕ)
    (hw : Voiced works ps d w) {tail : List Int16}
    (htail : tail.length = (left + 1) * w.frameSamples) :
    ∃ w' qs last, finishFrames lib finalGranule (left + 1) tail w = .ok w' ∧ qs.length = left ∧
      Closed lib works.dec finalGranule (ps ++ qs) last ∧
      w'.ogg = headersOf (skipOf works) rate ++ (ps ++ qs ++ [last]) ∧
      w'.inputSamples = w.inputSamples ∧ w'.sampleRateHz = rate := by
  have hconfig := hw.config
  have hframe : (tail.take w.frameSamples).length = w.frameSamples := by
    rw [length_take, htail, add_mul]
    omega
  induction left generalizing w ps d tail with
  | zero =>
    obtain ⟨packet, w', d', hok, hne, hfits, hdecode, -, hogg, -, hconfig', -, hinput⟩ :=
      encodeFrame_ok hw hframe .endStream finalGranule
    refine ⟨w', [], ⟨packet, finalGranule, .endStream⟩, ?_, rfl, ?_, ?_, hinput,
      hconfig'.sampleRateHz_eq⟩
    · rw [finishFrames, if_pos rfl, if_pos rfl, hok, ok_bind, finishFrames]
    · rw [append_nil]
      exact ⟨⟨d, d', hw.spoken, hdecode⟩, hne, hfits, rfl, rfl⟩
    · rw [append_nil, hogg, hw.ogg_eq, append_assoc]
  | succ left ih =>
    have hgranule : u64 ((w.packets + 1) * w.frameSamples * w.granulePerSample) =
        u64 (960 * (ps.length + 1)) := by
      rw [hw.packets_eq, hconfig.frameSamples_eq, hconfig.granulePerSample_eq, mul_assoc,
        (rate_facts hrate).1, mul_comm]
      unfold u64
      omega
    obtain ⟨p, w1, d1, hok, hvoiced, -, hinput⟩ :=
      encodeFrame_more hw hframe (frameEnd_ne w) hgranule
    have hframes : w1.frameSamples = w.frameSamples := by
      rw [hvoiced.config.frameSamples_eq, hconfig.frameSamples_eq]
    have hdrop : (tail.drop w.frameSamples).length = (left + 1) * w1.frameSamples := by
      rw [length_drop, htail, hframes, add_mul (left + 1), one_mul, Nat.add_sub_cancel]
    have htake : ((tail.drop w.frameSamples).take w1.frameSamples).length = w1.frameSamples := by
      rw [length_take, hdrop, add_mul]
      omega
    obtain ⟨w', qs, last, hrun, hqs, hclosed, hogg, hinput', hsample⟩ :=
      ih hvoiced hdrop hvoiced.config htake
    rw [show ps ++ [p] ++ qs = ps ++ p :: qs by simp] at hclosed hogg
    refine ⟨w', p :: qs, last, ?_, ?_, hclosed, hogg, hinput'.trans hinput, hsample⟩
    · rw [finishFrames, if_neg (Nat.succ_ne_zero left), if_neg (Nat.succ_ne_zero left), hok,
        ok_bind]
      exact hrun
    · rw [length_cons, hqs]

/-- The number of closing frames: enough for `t` waiting samples, at least one, and none to
    spare. -/
theorem closing_frames {t F : ℕ} (hF : 0 < F) :
    ∃ left, max ((t + F - 1) / F) 1 = left + 1 ∧ F * left ≤ t ∧ t ≤ F * (left + 1) := by
  have hlow : F * ((t + F - 1) / F) ≤ t + F - 1 := Nat.mul_div_le _ _
  have hhigh : t + F - 1 < F * ((t + F - 1) / F + 1) := Nat.lt_mul_div_succ _ hF
  rw [mul_add] at hhigh
  generalize (t + F - 1) / F = c at hlow hhigh ⊢
  obtain _ | c := c
  · refine ⟨0, rfl, Nat.zero_le _, ?_⟩
    omega
  · rw [mul_add] at hlow hhigh
    refine ⟨c, by omega, by omega, ?_⟩
    rw [mul_add]
    omega

/-- The closed stream. The last granule position lies in the last packet. -/
theorem finish_ok (hrate : rate ∈ supportedRates) (hw : Holds works n ps d w) :
    ∃ stats qs last, w.finish lib = .ok (stats, headersOf (skipOf works) rate ++ (qs ++ [last])) ∧
      stats.inputSamples = u64 n ∧ stats.sampleRateHz = rate ∧
      Closed lib works.dec (u64 (skipOf works + u64 n * (granuleRate / rate))) qs last ∧
      960 * qs.length ≤ skipOf works + n * (granuleRate / rate) ∧
      skipOf works + n * (granuleRate / rate) ≤ 960 * (qs.length + 1) := by
  obtain ⟨hframe, -, hpos, -⟩ := rate_facts hrate
  have hconfig := hw.voiced.config
  have hcount := hw.count
  have hlookahead : w.preSkip / w.granulePerSample = (lib.lookahead works.enc).toNat := by
    rw [hconfig.preSkip_eq, hconfig.granulePerSample_eq, skipOf, Nat.mul_div_cancel _ hpos]
  obtain ⟨left, hframes, hle, hge⟩ : ∃ left,
      max ((w.pending.length + (lib.lookahead works.enc).toNat + w.frameSamples - 1) /
        w.frameSamples) 1 = left + 1 ∧ _ := closing_frames w.frameSamples_pos
  have hvoiced : Voiced works ps d { w with pending := [] } :=
    { hw.voiced with config := { hconfig with } }
  have htail : (w.pending ++ replicate ((left + 1) * w.frameSamples - w.pending.length)
      (0 : Int16)).length = (left + 1) * w.frameSamples := by
    rw [length_append, length_replicate, mul_comm]
    omega
  obtain ⟨w', qs, last, hrun, hqs, hclosed, hogg, hinput, hsample⟩ :=
    finishFrames_ok hrate (u64 (w.preSkip + w.inputSamples * w.granulePerSample)) left hvoiced htail
  have hlen : (ps ++ qs).length = ps.length + left := by rw [length_append, hqs]
  rw [hconfig.frameSamples_eq] at hle hge hcount
  rw [mul_comm] at hcount
  refine ⟨w'.stats, ps ++ qs, last, ?_, ?_, hsample, ?_, ?_, ?_⟩
  · rw [finish, hlookahead]
    simp only [hframes]
    rw [hrun, ok_bind, hogg]
  · exact hinput.trans hw.inputSamples_eq
  · rw [hconfig.preSkip_eq, hw.inputSamples_eq, hconfig.granulePerSample_eq] at hclosed
    exact hclosed
  · have hsum : rate * frameMs / 1000 * (ps.length + left) ≤
        n + (lib.lookahead works.enc).toNat := by
      rw [mul_add]
      omega
    rw [hlen, ← hframe, mul_right_comm, skipOf, ← add_mul, add_comm _ n]
    exact Nat.mul_le_mul_right _ hsum
  · have hsum : n + (lib.lookahead works.enc).toNat ≤
        rate * frameMs / 1000 * (ps.length + left + 1) := by
      rw [mul_add] at hge
      rw [mul_add, mul_add]
      omega
    rw [hlen, ← hframe, mul_right_comm, skipOf, ← add_mul, add_comm _ n]
    exact Nat.mul_le_mul_right _ hsum

end Steps

end Writer

/-! ## The inspector on the writer's stream -/

variable {qs : List Packet}

section
variable (works : lib.Works rate) (hrate : rate ∈ supportedRates) (muxer : Muxer)
  (hserial : serial < 2 ^ 32) (hclosed : Closed lib works.dec
    (u64 (skipOf works + u64 n * (granuleRate / rate))) qs last)
  (hlow : 960 * qs.length ≤ skipOf works + n * (granuleRate / rate))
  (hhigh : skipOf works + n * (granuleRate / rate) ≤ 960 * (qs.length + 1))
include works hrate muxer hserial hclosed hlow hhigh

/-- The inspector reads the number of pushed samples back, in ticks, as long as its clock has
    room for them and a closing frame. -/
theorem inspect_archive_fits (hclock : skipOf works + n * (granuleRate / rate) + 960 < u64Max)
    (hfile : (muxer.mux serial (headersOf (skipOf works) rate ++ (qs ++ [last]))).length ≤ u64Max) :
    inspectCompleteArchive lib
        (muxer.mux serial (headersOf (skipOf works) rate ++ (qs ++ [last]))) =
      .ok ⟨rate, n * (granuleRate / rate), qs.length + 1, (muxer.mux serial
        (headersOf (skipOf works) rate ++ (qs ++ [last]))).length⟩ := by
  obtain ⟨-, -, hpos, -⟩ := rate_facts hrate
  have hskip : skipOf works < 2 ^ 16 := works.preSkip_fits
  have hmax : u64Max < 2 ^ 64 := by decide
  have hticks : n ≤ n * (granuleRate / rate) := Nat.le_mul_of_pos_right n hpos
  have hfinal : u64 (skipOf works + u64 n * (granuleRate / rate)) =
      skipOf works + n * (granuleRate / rate) := by
    rw [u64, u64, Nat.mod_eq_of_lt (show n < 2 ^ 64 by omega)]
    exact Nat.mod_eq_of_lt (by omega)
  rw [hfinal] at hclosed
  obtain ⟨pages, hframed, hmux⟩ := muxer.framed serial
    (headersOf (skipOf works) rate ++ qs) last hclosed.finish_eq
  rw [append_assoc] at hframed hmux
  have hclose : Closes (skipOf works + n * (granuleRate / rate)) (qs.length + 1)
      (skipOf works) rate := by
    refine ⟨by omega, ?_, by omega, hhigh, ?_⟩
    · exact hlow
    · rw [Nat.add_sub_cancel_left, Nat.mul_mod_left]
  have hspeech := hclosed.speech (by omega)
  rw [hmux] at hfile ⊢
  rw [inspect_stream works.decoderCreate_eq hserial hrate hskip hframed hclose hspeech hfile,
    Nat.add_sub_cancel_left]

/-- The inspector reads the number of pushed samples back, in ticks. -/
theorem inspect_archive (hn : n * 1000 < 2 ^ 64) :
    ∃ bytes, muxer.mux serial (headersOf (skipOf works) rate ++ (qs ++ [last])) =
        bytes ∧ bytes.length ≤ maxFileBytes ∧ inspectCompleteArchive lib bytes =
      .ok ⟨rate, n * (granuleRate / rate), qs.length + 1, bytes.length⟩ := by
  obtain ⟨-, -, -, hsix⟩ := rate_facts hrate
  have hskip : skipOf works < 2 ^ 16 := works.preSkip_fits
  have hticks : n * (granuleRate / rate) ≤ n * 6 := Nat.mul_le_mul_left n hsix
  obtain ⟨pages, hframed, hmux⟩ := muxer.framed serial
    (headersOf (skipOf works) rate ++ qs) last hclosed.finish_eq
  rw [append_assoc] at hframed hmux
  have hlimit : ∀ p ∈ headersOf (skipOf works) rate ++ (qs ++ [last]),
      p.data.length ≤ maxPacketBytes := by
    intro p hp
    obtain ⟨d, d', hspoken, -⟩ := hclosed.decodes
    simp only [headersOf, mem_append, mem_cons, not_mem_nil, or_false] at hp
    rcases hp with (rfl | rfl) | hp | rfl
    · show (opusHead 1 _ _).length ≤ maxPacketBytes
      rw [opusHead_length]
      decide
    · show opusTags.length ≤ maxPacketBytes
      decide
    · exact hspoken.fits_all p hp
    · exact hclosed.fits
  have hbytes := hframed.streamBytes_le checksum serial hlimit
  have hcount : (headersOf (skipOf works) rate ++ (qs ++ [last])).length = qs.length + 3 := by
    simp [headersOf]
  rw [hcount, show maxPacketBytes / 255 + 1 = 16 from rfl, ← hmux] at hbytes
  refine ⟨_, rfl, by unfold maxFileBytes; omega, ?_⟩
  exact inspect_archive_fits works hrate muxer hserial hclosed hlow hhigh
    (by unfold u64Max; omega) (by unfold u64Max; omega)

end

end FlyOnTheWall.Opus
