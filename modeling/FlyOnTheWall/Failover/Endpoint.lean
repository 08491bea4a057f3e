/-
  The endpointer of the local engine and the segments made of its chunks
  (`fotw-stt/src/local.rs`).

  The endpointer cuts a leg's PCM into utterances. What it computes in floating point (the
  level of a frame, the noise floor, the variation of an utterance) is a parameter,
  `Acoustics`: everything proved here holds for every classification of every frame. Sample
  positions are counted from where the endpointer started.
-/
import FlyOnTheWall.Failover.Coverage
import Mathlib.Data.List.Basic
import Mathlib.Algebra.Order.Group.Nat

namespace FlyOnTheWall.Endpoint

open Lib Coverage List Option

abbrev Sample := BitVec 16

/-- `SAMPLES_PER_MS`. -/
def samplesPerMs : ℕ := 16

/-- One utterance's audio. -/
structure Chunk where
  startSample : ℕ
  samples : List Sample
  deriving DecidableEq

variable (chunk : Chunk)

def Chunk.startMs : ℕ := chunk.startSample / samplesPerMs

def Chunk.durationMs : ℕ := chunk.samples.length / samplesPerMs

/-- Where the chunk ends. -/
def Chunk.stop : ℕ := chunk.startSample + chunk.samples.length

/-! ## The endpointer -/

/-- What one frame was taken for. -/
structure Heard where
  speech : Bool
  varied : Bool
  deriving DecidableEq, Repr

/-- The floating-point part: the level of a frame, the adaptive gate with its noise floor and
    window of recent levels, and the range of levels of an utterance. -/
structure Acoustics where
  Level : Type
  Gate : Type
  start : Gate
  levelDb : List Sample → Level
  hear : Gate → Level → Heard × Gate
  louder : Level → Level → Level
  quieter : Level → Level → Level
  swings : Level → Level → Bool

structure Utterance (a : Acoustics) where
  startSample : ℕ
  samples : List Sample
  voicedMs : ℕ
  silenceMs : ℕ
  loudest : a.Level
  quietest : a.Level

structure Endpointer (a : Acoustics) where
  voicedSamples : ℕ
  config : EndpointConfig
  frameLen : ℕ
  prerollLen : ℕ
  pending : List Sample
  position : ℕ
  gate : a.Gate
  preroll : List Sample
  utterance : Option (Utterance a)

namespace Endpointer
variable {a : Acoustics}

def new (a : Acoustics) (config : EndpointConfig) : Endpointer a where
  voicedSamples := 0
  config
  frameLen := max config.frameMs 1 * samplesPerMs
  prerollLen := config.prerollMs * samplesPerMs
  pending := []
  position := 0
  gate := a.start
  preroll := []
  utterance := none

variable (e : Endpointer a)

/-- The processed audio no longer held as an utterance or as preroll. -/
def safeThroughSample : ℕ :=
  match e.utterance with
  | none => e.position - e.preroll.length
  | some u => u.startSample

/-- The open utterance ends; it is worth a chunk if it is voiced and its level varied. -/
def finish : Option Chunk × Endpointer a :=
  match e.utterance with
  | none => (none, e)
  | some u =>
    (if e.config.minSpeechMs ≤ u.voicedMs && a.swings u.loudest u.quietest then
        some ⟨u.startSample, u.samples⟩
      else none,
      { e with utterance := none })

/-- The first frame of an utterance, with the preroll before it. -/
def begun (frame : List Sample) : Utterance a where
  startSample := e.position - e.preroll.length
  samples := e.preroll ++ frame
  voicedMs := frame.length / samplesPerMs
  silenceMs := 0
  loudest := a.levelDb frame
  quietest := a.levelDb frame

/-- A frame inside an utterance. -/
def extended (u : Utterance a) (frame : List Sample) (speech : Bool) : Utterance a where
  startSample := u.startSample
  samples := u.samples ++ frame
  voicedMs := if speech then u.voicedMs + frame.length / samplesPerMs else u.voicedMs
  silenceMs := if speech then 0 else u.silenceMs + frame.length / samplesPerMs
  loudest := a.louder u.loudest (a.levelDb frame)
  quietest := a.quieter u.quietest (a.levelDb frame)

/-- Silence long enough, or the utterance too long. -/
def ended (config : EndpointConfig) (u : Utterance a) (speech : Bool) : Bool :=
  let lengthMs := u.samples.length / samplesPerMs
  config.hangoverMs ≤ u.silenceMs || config.hardMaxMs ≤ lengthMs ||
    (config.softMaxMs ≤ lengthMs && !speech)

/-- The gate, the position and the voiced count after a frame. -/
def listened (frame : List Sample) : Endpointer a :=
  let heard := a.hear e.gate (a.levelDb frame)
  { e with
    position := e.position + frame.length
    gate := heard.2
    voicedSamples := if heard.1.speech && heard.1.varied then
        saturatingAdd e.voicedSamples frame.length
      else e.voicedSamples }

def frame (samples : List Sample) : Option Chunk × Endpointer a :=
  let speech := (a.hear e.gate (a.levelDb samples)).1.speech
  match e.utterance with
  | none =>
    if speech then
      (none, { e.listened samples with preroll := [], utterance := some (e.begun samples) })
    else
      let preroll := e.preroll ++ samples
      (none, { e.listened samples with preroll := preroll.drop (preroll.length - e.prerollLen) })
  | some u =>
    let u := extended u samples speech
    if ended e.config u speech then
      finish { e.listened samples with utterance := some u }
    else (none, { e.listened samples with utterance := some u })

def frames (e : Endpointer a) : List (List Sample) → List Chunk × Endpointer a
  | [] => ([], e)
  | samples :: rest =>
    let one := e.frame samples
    let others := frames one.2 rest
    (one.1.toList ++ others.1, others.2)

/-- The first `count` pieces of `len` samples. -/
def pieces (len : ℕ) : ℕ → List Sample → List (List Sample)
  | 0, _ => []
  | count + 1, samples => samples.take len :: pieces len count (samples.drop len)

def push (pcm : List Sample) : List Chunk × Endpointer a :=
  let pending := e.pending ++ pcm
  let count := pending.length / e.frameLen
  { e with pending := pending.drop (count * e.frameLen) }.frames (pieces e.frameLen count pending)

/-- The open utterance ends, with a trailing partial frame. -/
def flush : Option Chunk × Endpointer a :=
  let last := if e.pending.isEmpty then (none, e) else { e with pending := [] }.frame e.pending
  let rest := last.2.finish
  (rest.1.or last.1, rest.2)

end Endpointer

/-! ## Positions -/

open Endpointer

variable {a : Acoustics}

/-- Everything before the partial frame stands on whole milliseconds; an open utterance or
    the preroll reaches up to the position. -/
structure Aligned (e : Endpointer a) : Prop where
  frameLen : 16 ∣ e.frameLen
  frameLen_pos : 0 < e.frameLen
  prerollLen : 16 ∣ e.prerollLen
  position : 16 ∣ e.position
  preroll : 16 ∣ e.preroll.length
  preroll_le : e.preroll.length ≤ e.position
  utterance : ∀ u, e.utterance = some u → e.preroll = [] ∧ 16 ∣ u.startSample ∧
    u.samples ≠ [] ∧ u.startSample + u.samples.length = e.position

theorem aligned_new (config : EndpointConfig) : Aligned (Endpointer.new a config) where
  frameLen := Nat.dvd_mul_left _ _
  frameLen_pos := Nat.mul_pos (Nat.lt_of_lt_of_le Nat.zero_lt_one (Nat.le_max_right _ _))
    (by decide)
  prerollLen := Nat.dvd_mul_left _ _
  position := Nat.dvd_zero _
  preroll := Nat.dvd_zero _
  preroll_le := Nat.le_refl _
  utterance _ h := nomatch h

/-- Chunks in order from `low` on, each on whole milliseconds, none past `high`. -/
def InOrder (low : ℕ) : List Chunk → ℕ → Prop
  | [], high => low ≤ high
  | chunk :: rest, high => low ≤ chunk.startSample ∧ 16 ∣ chunk.startSample ∧
      16 ∣ chunk.samples.length ∧ chunk.samples ≠ [] ∧ InOrder chunk.stop rest high

theorem inOrder_append {low mid high : ℕ} {first second : List Chunk}
    (h1 : InOrder low first mid) (h2 : InOrder mid second high) :
    InOrder low (first ++ second) high := by
  induction first generalizing low with
  | nil =>
    cases second with
    | nil => exact le_trans h1 h2
    | cons chunk rest => exact ⟨le_trans h1 h2.1, h2.2⟩
  | cons chunk rest ih => exact ⟨h1.1, h1.2.1, h1.2.2.1, h1.2.2.2.1, ih h1.2.2.2.2⟩

theorem InOrder.le {low high : ℕ} {chunks : List Chunk} (h : InOrder low chunks high) :
    low ≤ high := by
  induction chunks generalizing low with
  | nil => exact h
  | cons chunk rest ih =>
    obtain ⟨hlow, -, -, -, hrest⟩ := h
    have hstop := ih hrest
    unfold Chunk.stop at hstop
    omega

variable {e : Endpointer a} {u : Utterance a}

theorem safeThroughSample_none (h : e.utterance = none) :
    e.safeThroughSample = e.position - e.preroll.length := by
  unfold safeThroughSample
  rw [h]

theorem safeThroughSample_some (h : e.utterance = some u) :
    e.safeThroughSample = u.startSample := by
  unfold safeThroughSample
  rw [h]

theorem Aligned.dvd_safe (h : Aligned e) : 16 ∣ e.safeThroughSample := by
  cases hu : e.utterance with
  | none =>
    rw [safeThroughSample_none hu]
    exact Nat.dvd_sub h.position h.preroll
  | some u =>
    rw [safeThroughSample_some hu]
    exact (h.utterance u hu).2.1

theorem Aligned.safe_le (h : Aligned e) : e.safeThroughSample ≤ e.position := by
  cases hu : e.utterance with
  | none =>
    rw [safeThroughSample_none hu]
    exact Nat.sub_le _ _
  | some u =>
    rw [safeThroughSample_some hu]
    have hend := (h.utterance u hu).2.2.2
    omega

/-- What one frame does: it may complete a chunk, which then reaches from the held audio to
    the new position. -/
structure Framed (e : Endpointer a) (samples : List Sample) (r : Option Chunk × Endpointer a) :
    Prop where
  position : r.2.position = e.position + samples.length
  frameLen : r.2.frameLen = e.frameLen
  prerollLen : r.2.prerollLen = e.prerollLen
  pending : r.2.pending = e.pending
  chunk : ∀ chunk, r.1 = some chunk → chunk.startSample = e.safeThroughSample ∧
    chunk.stop = e.position + samples.length ∧ chunk.samples ≠ []
  held : ∀ u, r.2.utterance = some u → u.startSample = e.safeThroughSample ∧
    u.startSample + u.samples.length = e.position + samples.length ∧ u.samples ≠ []
  rest : r.2.safeThroughSample = e.position + samples.length ∧ r.2.preroll = [] ∧
      r.2.utterance = none ∨
    r.1 = none ∧ (16 ∣ samples.length → Aligned r.2) ∧
      e.safeThroughSample ≤ r.2.safeThroughSample

variable {samples : List Sample}

theorem finish_framed (h : Aligned e) (hu : e.utterance = some u)
    {f : Endpointer a} {v : Utterance a} (hv : f.utterance = some v)
    (hstart : v.startSample = u.startSample) (hsamples : v.samples = u.samples ++ samples)
    (hpos : f.position = e.position + samples.length) (hpre : f.preroll = e.preroll)
    (hlen : f.frameLen = e.frameLen) (hplen : f.prerollLen = e.prerollLen)
    (hpend : f.pending = e.pending) : Framed e samples f.finish := by
  obtain ⟨hnone, -, hne, hend⟩ := h.utterance u hu
  unfold finish
  rw [hv]
  refine ⟨hpos, hlen, hplen, hpend, ?_, nofun, .inl ⟨?_, hpre.trans hnone, rfl⟩⟩
  · intro chunk hchunk
    dsimp only at hchunk
    split at hchunk
    · cases hchunk
      refine ⟨?_, ?_, ?_⟩
      · rw [safeThroughSample_some hu]
        exact hstart
      · show v.startSample + v.samples.length = _
        rw [hstart, hsamples, length_append]
        omega
      · show v.samples ≠ []
        rw [hsamples]
        exact append_ne_nil_of_left_ne_nil hne _
    · cases hchunk
  · show f.position - f.preroll.length = _
    rw [hpre, hnone, hpos]
    rfl

theorem frame_framed (h : Aligned e) (hne : samples ≠ []) : Framed e samples (e.frame samples) := by
  unfold Endpointer.frame
  cases hu : e.utterance with
  | none =>
    dsimp only
    split
    · -- an utterance begins, with the preroll
      have hstop : e.position - e.preroll.length + (e.preroll ++ samples).length =
          e.position + samples.length := by
        have hle := h.preroll_le
        rw [length_append]
        omega
      have hfilled : e.preroll ++ samples ≠ [] := append_ne_nil_of_right_ne_nil _ hne
      refine ⟨rfl, rfl, rfl, rfl, nofun, ?_, .inr ⟨rfl, fun hdvd => ?_, ?_⟩⟩
      · intro u hsome
        cases hsome
        rw [safeThroughSample_none hu]
        exact ⟨rfl, hstop, hfilled⟩
      · refine ⟨h.frameLen, h.frameLen_pos, h.prerollLen, Nat.dvd_add h.position hdvd,
          Nat.dvd_zero _, Nat.zero_le _, ?_⟩
        intro u hsome
        cases hsome
        exact ⟨rfl, Nat.dvd_sub h.position h.preroll, hfilled, hstop⟩
      · rw [safeThroughSample_none hu, safeThroughSample_some rfl]
        exact le_rfl
    · -- silence: the preroll moves on
      have hdrop : ((e.preroll ++ samples).drop
          ((e.preroll ++ samples).length - e.prerollLen)).length =
          min (e.preroll.length + samples.length) e.prerollLen := by
        rw [length_drop, length_append]
        omega
      have hstill : ∀ u, (e.listened samples).utterance ≠ some u := by
        intro u hsome
        rw [show (e.listened samples).utterance = e.utterance from rfl, hu] at hsome
        cases hsome
      refine ⟨rfl, rfl, rfl, rfl, nofun, fun u hsome => (hstill u hsome).elim,
        .inr ⟨rfl, fun hdvd => ?_, ?_⟩⟩
      · refine ⟨h.frameLen, h.frameLen_pos, h.prerollLen, Nat.dvd_add h.position hdvd, ?_, ?_,
          fun u hsome => (hstill u hsome).elim⟩
        · show 16 ∣ ((e.preroll ++ samples).drop _).length
          rw [hdrop]
          have hsum := Nat.dvd_add h.preroll hdvd
          have hplen := h.prerollLen
          rcases le_total (e.preroll.length + samples.length) e.prerollLen with hle | hle
          · rwa [min_eq_left hle]
          · rwa [min_eq_right hle]
        · show ((e.preroll ++ samples).drop _).length ≤ e.position + samples.length
          have hle := h.preroll_le
          omega
      · have hafter := safeThroughSample_none (a := a) (show ({ e.listened samples with
          preroll := (e.preroll ++ samples).drop ((e.preroll ++ samples).length - e.prerollLen) } :
            Endpointer a).utterance = none from hu)
        rw [safeThroughSample_none hu]
        refine le_trans ?_ (le_of_eq hafter.symm)
        show e.position - e.preroll.length ≤
          e.position + samples.length - ((e.preroll ++ samples).drop _).length
        omega
  | some u =>
    dsimp only
    obtain ⟨hnone, hstart, hune, hend⟩ := h.utterance u hu
    split
    · exact finish_framed h hu rfl rfl rfl rfl rfl rfl rfl rfl
    have hstop : u.startSample + (u.samples ++ samples).length = e.position + samples.length := by
      rw [length_append]
      omega
    have hfilled : u.samples ++ samples ≠ [] := append_ne_nil_of_left_ne_nil hune _
    refine ⟨rfl, rfl, rfl, rfl, nofun, ?_, .inr ⟨rfl, fun hdvd => ?_, ?_⟩⟩
    · intro v hsome
      cases hsome
      rw [safeThroughSample_some hu]
      exact ⟨rfl, hstop, hfilled⟩
    · refine ⟨h.frameLen, h.frameLen_pos, h.prerollLen, Nat.dvd_add h.position hdvd,
        h.preroll, Nat.le_trans h.preroll_le (Nat.le_add_right _ _), ?_⟩
      intro v hsome
      cases hsome
      exact ⟨hnone, hstart, hfilled, hstop⟩
    · rw [safeThroughSample_some hu, safeThroughSample_some rfl]
      exact le_rfl

theorem frame_aligned (h : Aligned e) (hne : samples ≠ []) (hdvd : 16 ∣ samples.length) :
    Aligned (e.frame samples).2 ∧
      InOrder e.safeThroughSample (e.frame samples).1.toList
        (e.frame samples).2.safeThroughSample := by
  have hf := frame_framed h hne
  generalize e.frame samples = r at hf
  rcases hf.rest with ⟨hsafe, hpre, hnone⟩ | ⟨hquiet, haligned, hle⟩
  · constructor
    · refine ⟨hf.frameLen ▸ h.frameLen, hf.frameLen ▸ h.frameLen_pos,
        hf.prerollLen ▸ h.prerollLen, ?_, ?_, ?_, ?_⟩
      · rw [hf.position]
        exact Nat.dvd_add h.position hdvd
      · rw [hpre]
        exact Nat.dvd_zero _
      · rw [hpre]
        exact Nat.zero_le _
      · intro u hu
        rw [hnone] at hu
        cases hu
    · have hsafe_le := h.safe_le
      cases hc : r.1 with
      | none =>
        show e.safeThroughSample ≤ r.2.safeThroughSample
        omega
      | some chunk =>
        obtain ⟨hstart, hstop, hcne⟩ := hf.chunk chunk hc
        have hlen : chunk.samples.length = e.position + samples.length - e.safeThroughSample := by
          have : chunk.startSample + chunk.samples.length = e.position + samples.length := hstop
          omega
        refine ⟨le_of_eq hstart.symm, hstart ▸ h.dvd_safe, ?_, hcne, ?_⟩
        · rw [hlen]
          exact Nat.dvd_sub (Nat.dvd_add h.position hdvd) h.dvd_safe
        · show chunk.stop ≤ r.2.safeThroughSample
          omega
  · refine ⟨haligned hdvd, ?_⟩
    rw [hquiet]
    exact hle

/-- What a run of whole frames does. -/
structure Pushed (e : Endpointer a) (heard : ℕ) (r : List Chunk × Endpointer a) : Prop where
  aligned : Aligned r.2
  position : r.2.position = e.position + heard
  frameLen : r.2.frameLen = e.frameLen
  pending : r.2.pending = e.pending
  chunks : InOrder e.safeThroughSample r.1 r.2.safeThroughSample

theorem frames_pushed {all : List (List Sample)} (h : Aligned e)
    (hall : ∀ samples ∈ all, samples ≠ [] ∧ 16 ∣ samples.length) :
    Pushed e (all.map length).sum (e.frames all) := by
  induction all generalizing e with
  | nil => exact ⟨h, rfl, rfl, rfl, le_rfl⟩
  | cons samples rest ih =>
    obtain ⟨hne, hdvd⟩ := hall samples mem_cons_self
    have hf := frame_framed h hne
    obtain ⟨haligned, horder⟩ := frame_aligned h hne hdvd
    have hrest := ih haligned fun s hs => hall s (mem_cons_of_mem samples hs)
    refine ⟨hrest.aligned, ?_, hrest.frameLen.trans hf.frameLen, hrest.pending.trans hf.pending,
      inOrder_append horder hrest.chunks⟩
    rw [map_cons, sum_cons, ← add_assoc, ← hf.position]
    exact hrest.position

theorem pieces_spec {len : ℕ} (hpos : 0 < len) (hdvd : 16 ∣ len) {count : ℕ}
    (hroom : count * len ≤ samples.length) :
    (∀ piece ∈ pieces len count samples, piece ≠ [] ∧ 16 ∣ piece.length) ∧
      ((pieces len count samples).map length).sum = count * len := by
  induction count generalizing samples with
  | zero => exact ⟨nofun, (Nat.zero_mul len).symm⟩
  | succ count ih =>
    rw [Nat.succ_mul] at hroom
    have htake : (samples.take len).length = len := by
      rw [length_take]
      omega
    have hrest : count * len ≤ (samples.drop len).length := by
      rw [length_drop]
      omega
    obtain ⟨hall, hsum⟩ := ih hrest
    constructor
    · intro piece hpiece
      rcases mem_cons.mp hpiece with rfl | hpiece
      · rw [← length_pos_iff, htake]
        exact ⟨hpos, hdvd⟩
      · exact hall piece hpiece
    · rw [pieces, map_cons, sum_cons, htake, hsum, Nat.succ_mul, Nat.add_comm]

/-- All the audio the endpointer was given. -/
def Endpointer.heard (e : Endpointer a) : ℕ := e.position + e.pending.length

theorem Aligned.safe_le_heard (h : Aligned e) : e.safeThroughSample ≤ e.heard :=
  Nat.le_trans h.safe_le (Nat.le_add_right _ _)

/-- Pushing audio completes chunks in order, between what was held before and what is held
    after it. -/
theorem push_spec (h : Aligned e) (pcm : List Sample) :
    Aligned (e.push pcm).2 ∧ (e.push pcm).2.heard = e.heard + pcm.length ∧
      InOrder e.safeThroughSample (e.push pcm).1 (e.push pcm).2.safeThroughSample := by
  let pending := e.pending ++ pcm
  let count := pending.length / e.frameLen
  have hroom : count * e.frameLen ≤ pending.length := Nat.div_mul_le_self _ _
  have hcarry : Aligned { e with pending := pending.drop (count * e.frameLen) } :=
    { h with }
  obtain ⟨hall, hsum⟩ := pieces_spec h.frameLen_pos h.frameLen hroom
  have hpushed := frames_pushed hcarry hall
  rw [hsum] at hpushed
  refine ⟨hpushed.aligned, ?_, hpushed.chunks⟩
  show (Endpointer.frames _ _).2.position + (Endpointer.frames _ _).2.pending.length = _
  rw [hpushed.position, hpushed.pending]
  show e.position + count * e.frameLen + (pending.drop (count * e.frameLen)).length =
    e.position + e.pending.length + pcm.length
  have hlen : pending.length = e.pending.length + pcm.length := length_append
  rw [length_drop]
  omega

/-- The last chunk reaches from the held audio to the end of everything heard. -/
theorem flush_spec (h : Aligned e) {chunk : Chunk} (hchunk : e.flush.1 = some chunk) :
    chunk.startSample = e.safeThroughSample ∧ chunk.stop = e.heard ∧ chunk.samples ≠ [] := by
  unfold flush at hchunk
  split at hchunk
  · next hempty =>
    -- no partial frame: only an open utterance can end
    have hnil : e.pending = [] := isEmpty_iff.mp hempty
    have hheard : e.heard = e.position := by
      unfold Endpointer.heard
      rw [hnil]
      rfl
    cases hu : e.utterance with
    | none =>
      simp only [finish, hu] at hchunk
      cases hchunk
    | some u =>
      have hf : Framed e [] e.finish :=
        finish_framed h hu hu rfl (append_nil _).symm rfl rfl rfl rfl rfl
      simp only [or_none] at hchunk
      obtain ⟨hstart, hstop, hne⟩ := hf.chunk chunk hchunk
      exact ⟨hstart, hstop.trans hheard.symm, hne⟩
  · next hpending =>
    have hne : e.pending ≠ [] := fun hnil => hpending (isEmpty_iff.mpr hnil)
    have hcarry : Aligned { e with pending := [] } :=
      { h with }
    have hf := frame_framed hcarry hne
    generalize ({ e with pending := [] } : Endpointer a).frame e.pending = r at hf hchunk
    cases hu : r.2.utterance with
    | none =>
      simp only [finish, hu, none_or] at hchunk
      exact hf.chunk chunk hchunk
    | some u =>
      have hquiet : r.1 = none := by
        rcases hf.rest with ⟨-, -, hnone⟩ | ⟨hquiet, -⟩
        · rw [hnone] at hu
          cases hu
        · exact hquiet
      simp only [finish, hu, hquiet, or_none] at hchunk
      split at hchunk
      · cases hchunk
        exact hf.held u hu
      · cases hchunk

/-! ## Segments -/

/-- One stretch of recognised speech, timed from the start of its chunk. -/
structure Recognized where
  startMs : ℕ
  endMs : ℕ
  text : String
  deriving DecidableEq, Repr

/-- The label of the microphone's speaker. -/
def me : String := "me"

/-- `LocalStreamConfig` as far as segments need it. -/
structure LocalStreamConfig where
  sessionId : String
  source : Source
  sessionOffsetMs : ℕ

/-- The engine a recogniser factory stands for. -/
structure Factory where
  provider : String
  model : String
  language : Option String

/-- One final on the session clock, its times clamped into the chunk. -/
def segmentFor (config : LocalStreamConfig) (factory : Factory) (chunk : Chunk) (id : String)
    (r : Recognized) (text : String) : TranscriptSegment :=
  let base := config.sessionOffsetMs + chunk.startMs
  let startMs := base + min r.startMs chunk.durationMs
  { id
    sessionId := config.sessionId
    source := config.source
    speaker := if config.source = .mic then some me else none
    text
    startMs
    endMs := max (base + min r.endMs chunk.durationMs) startMs
    words := []
    confidence := none
    language := factory.language
    isFinal := true
    revision := 0
    provider := factory.provider
    model := factory.model
    timestampSource := .provider }

/-- The recognised texts worth a segment, numbered from `next` on. `spoken` removes artifacts
    and refuses what is not speech; `ids` mints identifiers. -/
def segmentsFor (spoken : String → Option String) (ids : ℕ → String)
    (config : LocalStreamConfig) (factory : Factory) (chunk : Chunk) :
    ℕ → List Recognized → List TranscriptSegment
  | _, [] => []
  | next, r :: rest =>
    match spoken r.text with
    | none => segmentsFor spoken ids config factory chunk next rest
    | some text => segmentFor config factory chunk (ids next) r text ::
        segmentsFor spoken ids config factory chunk (next + 1) rest

theorem segmentsFor_ids (spoken : String → Option String) (ids : ℕ → String)
    (config : LocalStreamConfig) (factory : Factory) (chunk : Chunk) (next : ℕ)
    (recognized : List Recognized) :
    (segmentsFor spoken ids config factory chunk next recognized).map (·.id) =
      (range' next
        (segmentsFor spoken ids config factory chunk next recognized).length).map ids := by
  induction recognized generalizing next with
  | nil => rfl
  | cons r rest ih =>
    unfold segmentsFor
    split
    · exact ih next
    · rw [map_cons, ih (next + 1), length_cons, range'_succ, map_cons]
      rfl

theorem exists_of_mem_segmentsFor {spoken : String → Option String} {ids : ℕ → String}
    {config : LocalStreamConfig} {factory : Factory} {chunk : Chunk} {next : ℕ}
    {recognized : List Recognized} {segment : TranscriptSegment}
    (h : segment ∈ segmentsFor spoken ids config factory chunk next recognized) :
    ∃ id r text, segment = segmentFor config factory chunk id r text := by
  induction recognized generalizing next with
  | nil => cases h
  | cons r rest ih =>
    unfold segmentsFor at h
    split at h
    · exact ih h
    · rcases mem_cons.mp h with rfl | h
      · exact ⟨_, r, _, rfl⟩
      · exact ih h

theorem segmentFor_times (config : LocalStreamConfig) (factory : Factory) (chunk : Chunk)
    (id : String) (r : Recognized) (text : String) :
    config.sessionOffsetMs + chunk.startMs ≤ (segmentFor config factory chunk id r text).startMs ∧
      (segmentFor config factory chunk id r text).startMs ≤
        (segmentFor config factory chunk id r text).endMs ∧
      (segmentFor config factory chunk id r text).endMs ≤
        config.sessionOffsetMs + chunk.startMs + chunk.durationMs := by
  refine ⟨Nat.le_add_right _ _, Nat.le_max_right _ _, ?_⟩
  show max _ _ ≤ _
  omega

end FlyOnTheWall.Endpoint
