/-
  The echo-cancellation adapter (`fotw-pipeline/src/aec.rs`): `Adapter` between the
  microphone and reference streams and a fixed-frame backend.

  The backend is a parameter: an arbitrary state machine that may fail, report another
  frame shape at any time and write anything into the output slice, whose length it cannot
  change. A sample type is anything with a zero, a NaN and a finiteness test. Clocks are ℕ:
  `validate` refuses a block whose end does not fit `u64`, so no counter of the source wraps.

  Each method is the source's, with the adapter and the caller's output vector passed
  explicitly. `pump` and the flush in `finish` are loops; `pumpOnce` is one pass of the
  first, and `pumpLoop` runs it for as many passes as there are unprocessed samples, which
  `pump_exit` shows to be enough.
-/
import FlyOnTheWall.Lib.Ledger
import FlyOnTheWall.Lib.U64

namespace FlyOnTheWall.Aec

open FlyOnTheWall.Lib

/-- What the adapter needs of `f32`. -/
class Sample (α : Type) where
  zero : α
  nan : α
  isFinite : α → Bool

/-- A loaded backend over a state `β`. The flag of a call is `is_ok()`. -/
structure Backend (α β : Type) where
  frameSamples : β → ℕ
  delaySamples : β → ℕ
  analyzeRender : β → List α → β × Bool
  /-- The capture frame and the output slice as it is before the call. -/
  processCapture : β → List α → List α → β × List α × Bool
  reset : β → β × Bool
  processCapture_length : ∀ b frame output,
    (processCapture b frame output).2.1.length = output.length

structure Config where
  frameSamples : ℕ
  delaySamples : ℕ
  maxWaitSamples : ℕ
  maxReferenceSamples : ℕ
  deriving DecidableEq, Repr

/-- A configuration whose limits `Adapter::new` accepted. -/
structure CheckedConfig extends Config where
  frame_pos : 0 < frameSamples
  frame_le : frameSamples ≤ 1024
  delay_le : delaySamples ≤ 16000
  frame_le_wait : frameSamples ≤ maxWaitSamples
  wait_le : maxWaitSamples ≤ 3200
  frame_le_reference : frameSamples ≤ maxReferenceSamples
  reference_le : maxReferenceSamples ≤ 16000

inductive BypassReason where
  | missingReference
  | backendFailed
  | reset
  | workerBusy
  | workerDeadline
  | workerCancelled
  deriving DecidableEq, Repr

inductive OutputKind where
  | cleaned
  | raw (reason : BypassReason)
  deriving DecidableEq, Repr

def OutputKind.isRaw : OutputKind → Bool
  | .cleaned => false
  | .raw _ => true

inductive BackendState where
  | available
  | failed
  deriving DecidableEq, Repr

/-- One interval on the original microphone clock. -/
structure Output (α : Type) where
  epoch : ℕ
  startSample : ℕ
  samples : List α
  kind : OutputKind
  deriving DecidableEq, Repr

structure Stats where
  cleanedSamples : ℕ
  rawSamples : ℕ
  backendFailures : ℕ
  deriving DecidableEq, Repr

inductive Error where
  | config
  | closed
  | epoch
  | discontinuous
  | overflow
  | invalidSamples
  deriving DecidableEq, Repr

structure Adapter (α β : Type) where
  backend : β
  config : CheckedConfig
  epoch : ℕ
  endSample : ℕ
  emitted : ℕ
  submitted : ℕ
  referenceStart : ℕ
  referenceEnd : ℕ
  raw : List α
  reference : List α
  renderFrame : List α
  captureFrame : List α
  processedFrame : List α
  skip : ℕ
  backendHasHistory : Bool
  failed : Bool
  closed : Bool
  stats : Stats

/-- Pop the front of a queue, moving its start along, while a condition on both holds. -/
def popWhile {α : Type} (cond : List α → ℕ → Bool) : List α → ℕ → List α × ℕ
  | [], start => ([], start)
  | x :: xs, start =>
    if cond (x :: xs) start then popWhile cond xs (start + 1) else (x :: xs, start)

/-- Put an interval on the caller's vector: it extends the last one when it continues it
    with the same provenance. -/
def pushOrExtend {α : Type} (out : List (Output α)) (o : Output α) : List (Output α) :=
  match out.getLast? with
  | none => out ++ [o]
  | some last =>
    if last.epoch = o.epoch ∧ last.kind = o.kind ∧
        last.startSample + last.samples.length = o.startSample then
      out.dropLast ++ [{ last with samples := last.samples ++ o.samples }]
    else out ++ [o]

namespace Adapter

variable {α β : Type} [Sample α] (B : Backend α β)

def new (backend : β) (config : Config) (epoch start : ℕ) : Except Error (Adapter α β) :=
  if h : 0 < config.frameSamples ∧ config.frameSamples ≤ 1024 ∧ config.delaySamples ≤ 16000 ∧
      config.frameSamples ≤ config.maxWaitSamples ∧ config.maxWaitSamples ≤ 3200 ∧
      config.frameSamples ≤ config.maxReferenceSamples ∧
      config.maxReferenceSamples ≤ 16000 ∧
      config.frameSamples = B.frameSamples backend ∧
      config.delaySamples = B.delaySamples backend then
    .ok
      { backend
        config :=
          { config with
            frame_pos := h.1
            frame_le := h.2.1
            delay_le := h.2.2.1
            frame_le_wait := h.2.2.2.1
            wait_le := h.2.2.2.2.1
            frame_le_reference := h.2.2.2.2.2.1
            reference_le := h.2.2.2.2.2.2.1 }
        epoch
        endSample := start
        emitted := start
        submitted := start
        referenceStart := start
        referenceEnd := start
        raw := []
        reference := []
        renderFrame := List.replicate config.frameSamples Sample.zero
        captureFrame := List.replicate config.frameSamples Sample.zero
        processedFrame := List.replicate config.frameSamples Sample.zero
        skip := config.delaySamples
        backendHasHistory := false
        failed := false
        closed := false
        stats := ⟨0, 0, 0⟩ }
  else .error .config

variable (a : Adapter α β)

def backendState : BackendState := if a.failed then .failed else .available

def bufferedSamples : ℕ := a.raw.length + a.reference.length

def validate (epoch start : ℕ) (samples : List α) : Except Error Unit :=
  if a.closed then .error .closed
  else if epoch ≠ a.epoch then .error .epoch
  else if u64Max < start + samples.length then .error .overflow
  else if samples.any fun n => !Sample.isFinite n then .error .invalidSamples
  else .ok ()

def shapeMatches : Bool :=
  B.frameSamples a.backend == a.config.frameSamples &&
    B.delaySamples a.backend == a.config.delaySamples

def countFailure : Adapter α β :=
  { a with stats := { a.stats with backendFailures := saturatingAdd a.stats.backendFailures 1 } }

def resetBackend : Adapter α β :=
  let r := B.reset a.backend
  let a := { a with backendHasHistory := false, backend := r.1 }
  let a := { a with failed := !r.2 || !a.shapeMatches B }
  if a.failed then a.countFailure else a

def append (samples : List α) (kind : OutputKind) (out : List (Output α)) :
    Adapter α β × List (Output α) :=
  if samples = [] then (a, out)
  else ({ a with emitted := a.emitted + samples.length },
    pushOrExtend out ⟨a.epoch, a.emitted, samples, kind⟩)

/-- Publish what is pending as it was recorded. -/
def bypass (reason : BypassReason) (reset : Bool) (out : List (Output α)) :
    Adapter α β × List (Output α) :=
  let samples := a.raw
  let r := { a with raw := [] }.append samples (.raw reason) out
  let a := { r.1 with
    stats :=
      { r.1.stats with rawSamples := saturatingAdd r.1.stats.rawSamples samples.length }
    submitted := r.1.endSample
    skip := r.1.config.delaySamples }
  (if reset && a.backendHasHistory && !a.failed then a.resetBackend B else a, r.2)

/-- The backend calls of `process`, in order, each only if everything before it succeeded. -/
def invoke : Adapter α β × Bool :=
  if !a.shapeMatches B then (a, false)
  else
    let rendered := B.analyzeRender a.backend a.renderFrame
    let a := { a with backend := rendered.1 }
    if !rendered.2 || !a.shapeMatches B then (a, false)
    else
      let captured := B.processCapture a.backend a.captureFrame a.processedFrame
      let a := { a with backend := captured.1, processedFrame := captured.2.1 }
      (a, captured.2.2 && a.shapeMatches B)

variable (out : List (Output α))

def process : Bool × Adapter α β × List (Output α) :=
  -- an unwritten suffix must not pass for silence
  let a := { a with
    backendHasHistory := true
    processedFrame := List.replicate a.processedFrame.length Sample.nan }
  let r := a.invoke B
  if !r.2 || r.1.processedFrame.any fun n => !Sample.isFinite n then
    (false, { r.1 with failed := true }.countFailure.bypass B .backendFailed false out)
  else (true, r.1, out)

def emitProcessed : Adapter α β × List (Output α) :=
  let skip := min a.skip a.processedFrame.length
  let a := { a with skip := a.skip - skip }
  let count := min (a.processedFrame.length - skip) a.raw.length
  if count = 0 then (a, out)
  else
    let samples := (a.processedFrame.drop skip).take count
    let r := { a with raw := a.raw.drop count }.append samples .cleaned out
    ({ r.1 with
        stats :=
          { r.1.stats with cleanedSamples := saturatingAdd r.1.stats.cleanedSamples count } },
      r.2)

/-- A frame of zeros with up to `n` samples of `source` copied to its front. -/
def fillFrame (n : ℕ) (source : List α) : List α :=
  source.take n ++
    List.replicate (a.config.frameSamples - (source.take n).length) Sample.zero

/-- The next `n` unprocessed samples and the reference on the same clock. -/
def loadFrames (n : ℕ) : Adapter α β :=
  { a with
    captureFrame := a.fillFrame n (a.raw.drop (a.submitted - a.emitted))
    renderFrame := a.fillFrame n (a.reference.drop (a.submitted - a.referenceStart)) }

/-- Drop the reference of what was submitted. -/
def trimReference : Adapter α β :=
  let q := popWhile (fun _ start => decide (start < a.submitted)) a.reference a.referenceStart
  { a with reference := q.1, referenceStart := q.2 }

/-- Drop the oldest reference until there is room for one more sample. -/
def evictReference : Adapter α β :=
  let q := popWhile (fun queue _ => decide (a.config.maxReferenceSamples ≤ queue.length))
    a.reference a.referenceStart
  { a with reference := q.1, referenceStart := q.2 }

/-- One pass of the loop of `pump`; `false` is `break`. -/
def pumpOnce (stopping : Bool) (a : Adapter α β) (out : List (Output α)) :
    Bool × Adapter α β × List (Output α) :=
  let unprocessed := a.endSample - a.submitted
  if unprocessed = 0 ∨ (unprocessed < a.config.frameSamples ∧ stopping = false) then
    (false, a, out)
  else
    let n := min unprocessed a.config.frameSamples
    if a.submitted < a.referenceStart ∨ a.referenceEnd < a.submitted + n then
      if stopping = true ∨ a.submitted < a.referenceStart ∨
          a.config.maxWaitSamples ≤ unprocessed then
        (false, a.bypass B .missingReference true out)
      else (false, a, out)
    else
      let r := (a.loadFrames n).process B out
      if !r.1 then r
      else
        let e := { r.2.1 with submitted := r.2.1.submitted + n }.emitProcessed r.2.2
        (true, e.1.trimReference, e.2)

def pumpLoop (stopping : Bool) : ℕ → Adapter α β → List (Output α) → Adapter α β × List (Output α)
  | 0, a, out => (a, out)
  | fuel + 1, a, out =>
    let r := a.pumpOnce B stopping out
    if r.1 then pumpLoop stopping fuel r.2.1 r.2.2 else r.2

def pump (stopping : Bool) (out : List (Output α)) : Adapter α β × List (Output α) :=
  if a.failed then a.bypass B .backendFailed false out
  else pumpLoop B stopping (a.endSample - a.submitted) a out

/-- The loop of `push_render`; `stop` is the end of the block. -/
def renderLoop (stop : ℕ) : List α → Adapter α β → List (Output α) → Adapter α β × List (Output α)
  | [], a, out => (a, out)
  | x :: xs, a, out =>
    if a.failed then ({ a with reference := [], referenceEnd := stop, referenceStart := stop }, out)
    else
      let a := a.evictReference
      let r := { a with
        reference := a.reference ++ [x]
        referenceEnd := a.referenceEnd + 1 }.pump B false out
      renderLoop stop xs r.1 r.2

/-- A gap in the reference drops what was retained of it. -/
def skipGap (start : ℕ) : Adapter α β :=
  if a.referenceEnd < start then
    { a with reference := [], referenceStart := start, referenceEnd := start }
  else a

def pushRender (epoch start : ℕ) (samples : List α)
    (out : List (Output α)) : (Adapter α β × List (Output α)) × Except Error Unit :=
  match a.validate epoch start samples with
  | .error e => ((a, out), .error e)
  | .ok _ =>
    if start < a.referenceEnd then ((a, out), .error .discontinuous)
    else if samples = [] then ((a, out), .ok ())
    else (renderLoop B (start + samples.length) samples (a.skipGap start) out, .ok ())

/-- The rest of a block while the backend is fenced: it goes straight to the caller. -/
def passThrough (rest : List α) (out : List (Output α)) : Adapter α β × List (Output α) :=
  let a := { a with endSample := a.endSample + rest.length }
  let r := { a with submitted := a.endSample }.append rest (.raw .backendFailed) out
  ({ r.1 with
      stats := { r.1.stats with rawSamples := saturatingAdd r.1.stats.rawSamples rest.length } },
    r.2)

/-- The loop of `push_capture`. -/
def captureLoop : List α → Adapter α β → List (Output α) → Adapter α β × List (Output α)
  | [], a, out => (a, out)
  | x :: xs, a, out =>
    if a.failed then a.passThrough (x :: xs) out
    else
      let r := { a with raw := a.raw ++ [x], endSample := a.endSample + 1 }.pump B false out
      captureLoop xs r.1 r.2

def pushCapture (epoch start : ℕ) (samples : List α)
    (out : List (Output α)) : (Adapter α β × List (Output α)) × Except Error Unit :=
  match a.validate epoch start samples with
  | .error e => ((a, out), .error e)
  | .ok _ =>
    if start ≠ a.endSample then ((a, out), .error .discontinuous)
    else (captureLoop B samples a out, .ok ())

/-- Frames of padding. -/
def padFrames : Adapter α β :=
  { a with
    renderFrame := List.replicate a.config.frameSamples Sample.zero
    captureFrame := List.replicate a.config.frameSamples Sample.zero }

/-- The flush of the algorithmic delay in `finish`: at most `fuel` frames of padding. -/
def flushDelay : ℕ → Adapter α β → List (Output α) → Adapter α β × List (Output α)
  | 0, a, out => (a, out)
  | fuel + 1, a, out =>
    if a.raw = [] ∨ a.failed = true then (a, out)
    else
      let r := a.padFrames.process B out
      if !r.1 then r.2
      else
        let e := r.2.1.emitProcessed r.2.2
        flushDelay fuel e.1 e.2

variable (out : List (Output α))

def finish : Adapter α β × List (Output α) :=
  if a.closed then (a, out)
  else
    let r := a.pump B true out
    let frames :=
      (r.1.config.delaySamples + r.1.config.frameSamples - 1) / r.1.config.frameSamples + 1
    let r := flushDelay B frames r.1 r.2
    let r := if r.1.raw = [] then r else r.1.bypass B .backendFailed false r.2
    ({ r.1 with reference := [], referenceStart := r.1.referenceEnd, closed := true }, r.2)

def flushReferenceWait : Adapter α β × List (Output α) :=
  if a.submitted < a.endSample then a.bypass B .missingReference true out else (a, out)

def reset (epoch start : ℕ) (out : List (Output α)) :
    (Adapter α β × List (Output α)) × Except Error BackendState :=
  if epoch ≤ a.epoch then ((a, out), .error .epoch)
  else
    let r := a.bypass B .reset false out
    let a := { r.1 with
      epoch
      endSample := start
      emitted := start
      submitted := start
      reference := []
      referenceStart := start
      referenceEnd := start
      skip := r.1.config.delaySamples
      closed := false }
    let a := a.resetBackend B
    ((a, r.2), .ok a.backendState)

end Adapter

/-! ## A backend for concrete runs -/

/-- Samples for a concrete run: `none` is NaN. -/
instance : Sample (Option ℤ) := ⟨some 0, none, Option.isSome⟩

/-- A backend of two-sample frames and one sample of delay that copies its capture frame;
    its state is the number of frames it still processes before it fails. -/
def copyBackend : Backend (Option ℤ) ℕ where
  frameSamples := fun _ => 2
  delaySamples := fun _ => 1
  analyzeRender := fun b _ => (b, true)
  processCapture := fun b frame output =>
    (b - 1, frame.take output.length ++ output.drop frame.length, decide (0 < b))
  reset := fun b => (b, true)
  processCapture_length := by
    intro b frame output
    simp only [List.length_append, List.length_take, List.length_drop]
    omega

end FlyOnTheWall.Aec
