/-
  The archive writer: mono samples to 20 ms Opus packets in an Ogg stream.

  * `Libopus` is the codec, given from outside. `Libopus.Works` is what is assumed of it: a
    frame of 20 ms becomes one packet that fits the buffer, and a decoder fed the packets in
    order returns 960 samples for each.
  * `Writer` re-blocks pushes of any size into frames and hands the packets to the container;
    `Writer.ogg` holds the packets handed over so far. The sink itself does not fail here.
  * Counters are 64-bit and wrap, as in a release build.
-/
import Mathlib.Data.Int.Notation
import FlyOnTheWall.Lib.Ogg
import FlyOnTheWall.Lib.Storage

namespace FlyOnTheWall.Opus
open Lib

def frameMs : ℕ := 20
def granuleRate : ℕ := 48000
def pageIntervalMs : ℕ := 1000
def supportedRates : List ℕ := [8000, 12000, 16000, 24000, 48000]
def maxPacketBytes : ℕ := 4000

theorem mem_supportedRates {rate : ℕ} : rate ∈ supportedRates ↔
    rate = 8000 ∨ rate = 12000 ∨ rate = 16000 ∨ rate = 24000 ∨ rate = 48000 := by
  simp [supportedRates]

inductive OpusError
  | unsupportedRate (rate : ℕ)
  | codec (op : String) (code : ℤ)
  | container (message : String)
  | io (error : IoError)
  deriving DecidableEq, Repr

/-- A `u64` result. -/
def u64 (n : ℕ) : ℕ := n % 2 ^ 64

/-! ## The codec -/

/-- `encoderCreate` stands for creating and configuring an encoder. A negative result of
    `decode` is an error code. -/
structure Libopus (σ δ : Type) where
  encoderCreate : ℕ → Except OpusError σ
  lookahead : σ → ℤ
  encode : σ → List Int16 → Except ℤ (List UInt8) × σ
  decoderCreate : Except OpusError δ
  decode : δ → List UInt8 → ℤ × δ

/-- The codec at one input rate. `follows` relates an encoder to a decoder that has seen all
    of its packets. -/
structure Libopus.Works {σ δ : Type} (lib : Libopus σ δ) (rate : ℕ) where
  follows : σ → δ → Prop
  enc : σ
  dec : δ
  encoderCreate_eq : lib.encoderCreate rate = .ok enc
  decoderCreate_eq : lib.decoderCreate = .ok dec
  follows_start : follows enc dec
  lookahead_nonneg : 0 ≤ lib.lookahead enc
  preSkip_fits : (lib.lookahead enc).toNat * (granuleRate / rate) < 2 ^ 16
  encode_frame : ∀ e d, follows e d → ∀ frame : List Int16,
    frame.length = rate * frameMs / 1000 →
    ∃ packet e' d', lib.encode e frame = (.ok packet, e') ∧ packet ≠ [] ∧
      packet.length ≤ maxPacketBytes ∧ lib.decode d packet = (960, d') ∧ follows e' d'

/-! ## Header packets -/

def opusHead (channels preSkip inputRate : ℕ) : List UInt8 :=
  "OpusHead".toUTF8.data.toList ++ [1, .ofNat channels] ++ Ogg.leBytes 2 preSkip ++
    Ogg.leBytes 4 inputRate ++ [0, 0] ++ [0]

def vendor : String := "fotw-pipeline 0.1.0"

def opusTags : List UInt8 :=
  "OpusTags".toUTF8.data.toList ++ Ogg.leBytes 4 vendor.toUTF8.data.toList.length ++
    vendor.toUTF8.data.toList ++ [0, 0, 0, 0]

/-! ## The writer -/

structure OpusStats where
  packets : ℕ
  payloadBytes : ℕ
  inputSamples : ℕ
  pages : ℕ
  sampleRateHz : ℕ
  deriving DecidableEq, Repr

def OpusStats.durationMs (s : OpusStats) : ℕ :=
  if s.sampleRateHz = 0 then 0 else u64 (s.inputSamples * 1000) / s.sampleRateHz

structure Writer (σ : Type) where
  enc : σ
  ogg : List Ogg.Packet
  sampleRateHz : ℕ
  frameSamples : ℕ
  frameSamples_pos : 0 < frameSamples
  granulePerSample : ℕ
  preSkip : ℕ
  pending : List Int16
  inputSamples : ℕ
  framesPerPage : ℕ
  framesInPage : ℕ
  packets : ℕ
  payloadBytes : ℕ
  pages : ℕ

theorem frameSamples_pos_of_mem {rate : ℕ} (h : rate ∈ supportedRates) :
    0 < rate * frameMs / 1000 := by
  simp only [supportedRates, List.mem_cons, List.not_mem_nil, or_false] at h
  unfold frameMs
  omega

namespace Writer
variable {σ δ : Type} (lib : Libopus σ δ)

def create (rate : ℕ) : Except OpusError (Writer σ) :=
  if h : rate ∈ supportedRates then do
    let enc ← lib.encoderCreate rate
    let granulePerSample := granuleRate / rate
    let preSkip := u64 ((max (lib.lookahead enc) 0).toNat * granulePerSample)
    .ok {
      enc
      ogg := [⟨opusHead 1 (preSkip % 2 ^ 16) rate, 0, .endPage⟩, ⟨opusTags, 0, .endPage⟩]
      sampleRateHz := rate
      frameSamples := rate * frameMs / 1000
      frameSamples_pos := frameSamples_pos_of_mem h
      granulePerSample
      preSkip
      pending := []
      inputSamples := 0
      framesPerPage := max (pageIntervalMs / frameMs) 1
      framesInPage := 0
      packets := 0
      payloadBytes := 0
      pages := 2 }
  else .error (.unsupportedRate rate)

variable (w : Writer σ)

def stats : OpusStats :=
  ⟨w.packets, w.payloadBytes, w.inputSamples, w.pages, w.sampleRateHz⟩

/-- The writer after `packet` went to the container. -/
def handOver (enc : σ) (packet : List UInt8) (finish : Ogg.EndInfo)
    (granule : ℕ) : Writer σ := { w with
  enc
  ogg := w.ogg ++ [⟨packet, granule, finish⟩]
  payloadBytes := u64 (w.payloadBytes + packet.length)
  packets := u64 (w.packets + 1)
  framesInPage := if finish = .normal then w.framesInPage + 1 else 0
  pages := if finish = .normal then w.pages else u64 (w.pages + 1) }

def encodeFrame (frame : List Int16) (finish : Ogg.EndInfo) (granule : ℕ) :
    Except OpusError (Writer σ) :=
  match lib.encode w.enc frame with
  | (.error code, _) => .error (.codec "opus_encode" code)
  | (.ok packet, enc) => .ok (w.handOver enc packet finish granule)

/-- A frame that is not the last of the stream asks for a page end once the page is full. -/
def frameEnd : Ogg.EndInfo :=
  if w.framesInPage + 1 ≥ w.framesPerPage then .endPage else .normal

/-- The difference of two `u64`. -/
def consumedSamples : ℕ :=
  u64 (w.inputSamples + (2 ^ 64 - w.pending.length % 2 ^ 64))

variable {w w' : Writer σ}

theorem encodeFrame_pending {frame : List Int16} {finish : Ogg.EndInfo} {granule : ℕ}
    (h : w.encodeFrame lib frame finish granule = .ok w') : w'.pending = w.pending := by
  rw [encodeFrame] at h
  split at h
  · cases h
  · obtain rfl := Except.ok.inj h
    rfl

/-- The first waiting frame. -/
def drainOne (w : Writer σ) : Except OpusError (Writer σ) :=
  let w' := { w with pending := w.pending.drop w.frameSamples }
  w'.encodeFrame lib (w.pending.take w.frameSamples) w'.frameEnd
    (u64 (w'.consumedSamples * w'.granulePerSample))

theorem drainOne_pending (h : w.drainOne lib = .ok w') :
    w'.pending = w.pending.drop w.frameSamples := encodeFrame_pending lib h

/-- The loop of the writer: as long as a whole frame is waiting, encode it. -/
def drainFullFrames (w : Writer σ) : Except OpusError (Writer σ) :=
  if w.frameSamples ≤ w.pending.length then
    match _h : w.drainOne lib with
    | .error e => .error e
    | .ok w' => drainFullFrames w'
  else .ok w
termination_by w.pending.length
decreasing_by
  have hpos := w.frameSamples_pos
  rw [drainOne_pending lib _h, List.length_drop]
  omega

theorem drainFullFrames_step (hfull : w.frameSamples ≤ w.pending.length)
    (h : w.drainOne lib = .ok w') : w.drainFullFrames lib = w'.drainFullFrames lib := by
  rw [drainFullFrames, if_pos hfull]
  split
  · next hfail =>
    rw [h] at hfail
    cases hfail
  · next w'' hok =>
    rw [Except.ok.inj (h.symm.trans hok)]

theorem drainFullFrames_stop (hshort : w.pending.length < w.frameSamples) :
    w.drainFullFrames lib = .ok w := by
  rw [drainFullFrames, if_neg (Nat.not_le_of_lt hshort)]

def pushI16 (w : Writer σ) (pcm : List Int16) : Except OpusError (Writer σ) :=
  drainFullFrames lib { w with
    pending := w.pending ++ pcm
    inputSamples := u64 (w.inputSamples + pcm.length) }

/-- `toI16` clamps to full scale and rounds towards zero. -/
def pushF32 {φ : Type} (toI16 : φ → Int16) (w : Writer σ) (pcm : List φ) :
    Except OpusError (Writer σ) :=
  w.pushI16 lib (pcm.map toI16)

/-- `left` frames are still to be taken from `tail`. -/
def finishFrames (finalGranule : ℕ) : ℕ → List Int16 → Writer σ → Except OpusError (Writer σ)
  | 0, _, w => .ok w
  | left + 1, tail, w => do
    let finish := if left = 0 then .endStream else w.frameEnd
    let granule := if left = 0 then finalGranule
      else u64 ((w.packets + 1) * w.frameSamples * w.granulePerSample)
    let w' ← w.encodeFrame lib (tail.take w.frameSamples) finish granule
    finishFrames finalGranule left (tail.drop w.frameSamples) w'

/-- The packets of the closed stream and what it cost. -/
def finish (w : Writer σ) : Except OpusError (OpusStats × List Ogg.Packet) := do
  let tail := w.pending
  let lookahead := w.preSkip / w.granulePerSample
  let frames := max ((tail.length + lookahead + w.frameSamples - 1) / w.frameSamples) 1
  let tail := tail ++ List.replicate (frames * w.frameSamples - tail.length) 0
  let finalGranule := u64 (w.preSkip + w.inputSamples * w.granulePerSample)
  let w' ← finishFrames lib finalGranule frames tail { w with pending := [] }
  .ok (w'.stats, w'.ogg)

end Writer

end FlyOnTheWall.Opus
