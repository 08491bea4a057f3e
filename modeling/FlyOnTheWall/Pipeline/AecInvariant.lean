/-
  What the echo-cancellation adapter keeps, over every sequence of calls and every backend.

  Three counters (`emitted ≤ submitted ≤ endSample`) and two queues move together. `Wf` is
  what holds even while the adapter drains at its end, `Flow` adds the lag between what was
  submitted and what was emitted. Publication is stated through the `Ledger` library: each
  method only accepts, publishes from the front or turns to a later epoch (`Publishes`), so
  the law of publication carries over to whole runs of a `Session`.
-/
import FlyOnTheWall.Pipeline.Aec

namespace FlyOnTheWall.Aec

open FlyOnTheWall.Lib List

/-! ## The caller's vector as cells -/

section Cells

variable {α : Type}

def Output.cells (o : Output α) : List (Cell OutputKind α) :=
  cellsFrom o.epoch o.kind o.startSample o.samples

variable (out : List (Output α))

def outCells : List (Cell OutputKind α) := out.flatMap Output.cells

@[simp] theorem outCells_append (xs ys : List (Output α)) :
    outCells (xs ++ ys) = outCells xs ++ outCells ys := flatMap_append

variable (o : Output α)

/-- Extending the last interval or starting another publishes the same cells. -/
theorem outCells_pushOrExtend : outCells (pushOrExtend out o) = outCells out ++ o.cells := by
  have hsingle : ∀ x : Output α, outCells [x] = x.cells := fun x => by simp [outCells]
  unfold pushOrExtend
  cases hl : out.getLast? with
  | none => rw [outCells_append, hsingle]
  | some last =>
    obtain ⟨init, rfl⟩ := getLast?_eq_some_iff.mp hl
    dsimp only
    split
    · next h =>
      obtain ⟨he, hk, hs⟩ := h
      simp only [dropLast_concat, outCells_append, hsingle, append_assoc]
      simp only [Output.cells, cellsFrom_append, he, hk, hs]
    · rw [outCells_append, hsingle]

/-- `append` on the vector: nothing is put there for no samples. -/
def put : List (Output α) :=
  if o.samples = [] then out else pushOrExtend out o

theorem outCells_put : outCells (put out o) = outCells out ++ o.cells := by
  unfold put
  split
  · next h =>
    simp [Output.cells, h, cellsFrom]
  · exact outCells_pushOrExtend out o

theorem put_nonempty {out : List (Output α)} {o : Output α} (h : ∀ p ∈ out, p.samples ≠ []) :
    ∀ p ∈ put out o, p.samples ≠ [] := by
  unfold put pushOrExtend
  split
  · exact h
  rename_i ho
  have hpush : ∀ p ∈ out ++ [o], p.samples ≠ [] := by
    intro p hp
    rcases mem_append.mp hp with hp | hp
    · exact h p hp
    · rwa [mem_singleton.mp hp]
  cases hl : out.getLast? with
  | none => exact hpush
  | some last =>
    dsimp only
    split
    · intro p hp
      rcases mem_append.mp hp with hp | hp
      · exact h p (dropLast_subset _ hp)
      · rw [mem_singleton.mp hp]
        simp [ho]
    · exact hpush

variable (cond : List α → ℕ → Bool) (queue : List α) (start : ℕ)

theorem popWhile_total : (popWhile cond queue start).2 + (popWhile cond queue start).1.length =
      start + queue.length := by
  induction queue generalizing start with
  | nil => rfl
  | cons x xs ih =>
    unfold popWhile
    split
    · rw [ih, length_cons]
      omega
    · rfl

theorem popWhile_length_le : (popWhile cond queue start).1.length ≤ queue.length := by
  induction queue generalizing start with
  | nil => exact le_rfl
  | cons x xs ih =>
    unfold popWhile
    split
    · exact (ih _).trans (Nat.le_succ _)
    · exact le_rfl

/-- Evicting makes room for one more. -/
theorem popWhile_length_lt {limit : ℕ} (hpos : 0 < limit) (queue : List α) (start : ℕ) :
    (popWhile (fun q _ => decide (limit ≤ q.length)) queue start).1.length < limit := by
  induction queue generalizing start with
  | nil => exact hpos
  | cons x xs ih =>
    unfold popWhile
    split
    · exact ih _
    · next h =>
      simpa using h

end Cells

namespace Adapter

variable {α β : Type} (B : Backend α β) {p q r : Adapter α β × List (Output α)}

/-! ## What each helper does -/

variable (a : Adapter α β) {xs ys : List α}

theorem resetBackend_cases : ∃ b f st, a.resetBackend B =
      { a with backend := b, backendHasHistory := false, failed := f, stats := st } := by
  unfold resetBackend countFailure
  dsimp only
  split <;> exact ⟨_, _, _, rfl⟩

theorem append_eq (samples : List α) (kind : OutputKind) (out : List (Output α)) :
    a.append samples kind out =
      ({ a with emitted := a.emitted + samples.length },
        put out ⟨a.epoch, a.emitted, samples, kind⟩) := by
  unfold append put
  by_cases h : samples = []
  · simp [h]
  · simp [h]

theorem bypass_cases (reason : BypassReason) (reset : Bool) (out : List (Output α)) :
    ∃ b hh f st, a.bypass B reason reset out =
      ({ a with
          raw := []
          emitted := a.emitted + a.raw.length
          submitted := a.endSample
          skip := a.config.delaySamples
          backend := b
          backendHasHistory := hh
          failed := f
          stats := st },
        put out ⟨a.epoch, a.emitted, a.raw, .raw reason⟩) := by
  unfold bypass
  simp only [append_eq]
  split
  · obtain ⟨b, f, st, h⟩ := resetBackend_cases B
      { a with
        raw := []
        emitted := a.emitted + a.raw.length
        stats :=
          { a.stats with rawSamples := saturatingAdd a.stats.rawSamples a.raw.length }
        submitted := a.endSample
        skip := a.config.delaySamples }
    exact ⟨b, _, f, st, by rw [h]⟩
  · exact ⟨_, _, _, _, rfl⟩

theorem invoke_cases :
    ∃ b frame ok, a.invoke B = ({ a with backend := b, processedFrame := frame }, ok) ∧
      frame.length = a.processedFrame.length := by
  unfold invoke
  split
  · exact ⟨_, _, _, rfl, rfl⟩
  · dsimp only
    split
    · exact ⟨_, _, _, rfl, rfl⟩
    · exact ⟨_, _, _, rfl, B.processCapture_length _ _ _⟩

variable (out : List (Output α))

section

variable [Sample α]

/-- A frame either comes back whole and finite, or everything pending is released. -/
theorem process_cases : (∃ b frame, a.process B out =
        (true, { a with backendHasHistory := true, backend := b, processedFrame := frame }, out) ∧
      frame.length = a.processedFrame.length) ∨
    ∃ b frame st, a.process B out =
        (false, { a with
          backendHasHistory := true
          backend := b
          processedFrame := frame
          failed := true
          stats := st }.bypass B .backendFailed false out) ∧
      frame.length = a.processedFrame.length := by
  obtain ⟨b, frame, ok, h, hlen⟩ := invoke_cases B
    { a with
      backendHasHistory := true
      processedFrame := replicate a.processedFrame.length Sample.nan }
  rw [length_replicate] at hlen
  unfold process
  simp only [h]
  split
  · exact .inr ⟨b, frame, _, rfl, hlen⟩
  · exact .inl ⟨b, frame, rfl, hlen⟩

end

theorem emitProcessed_cases : ∃ skip count st samples, a.emitProcessed out =
        ({ a with
            skip := a.skip - skip
            raw := a.raw.drop count
            emitted := a.emitted + samples.length
            stats := st },
          put out ⟨a.epoch, a.emitted, samples, .cleaned⟩) ∧
      skip = min a.skip a.processedFrame.length ∧
      count = min (a.processedFrame.length - skip) a.raw.length ∧ samples.length = count := by
  unfold emitProcessed
  simp only [append_eq]
  split
  · next h =>
    refine ⟨_, 0, a.stats, [], ?_, rfl, h.symm, rfl⟩
    simp [put]
  · refine ⟨_, _, _, _, rfl, rfl, rfl, ?_⟩
    rw [length_take, length_drop]
    exact min_eq_left (min_le_left _ _)

/-! ## Publication -/

/-- The ledger of an adapter: raw intervals are the original ones. -/
abbrev MicLedger (α : Type) := Ledger OutputKind α fun kind => kind.isRaw = true

/-- The ledger of what an adapter accepted, and of the intervals it put on the caller's
    vector: `drained` are those the caller took from it, `out` those still there. -/
structure Shows (drained : List (Output α)) (L : MicLedger α) (a : Adapter α β)
    (out : List (Output α)) : Prop where
  epoch : a.epoch = L.cur.epoch
  emitted : a.emitted = L.cur.start + L.done
  stop : a.endSample = L.cur.start + L.cur.accepted.length
  raw : a.raw = L.pending
  cells : L.cells = outCells (drained ++ out)
  nonempty : ∀ o ∈ drained ++ out, o.samples ≠ []

/-- Going from `p` to `q` accepts `xs` and publishes by the law of the ledger. -/
def Publishes (xs : List α) (p q : Adapter α β × List (Output α)) : Prop :=
  ∀ drained L, Shows drained L p.1 p.2 →
    ∃ L', L.Advances xs L' ∧ Shows drained L' q.1 q.2

theorem Publishes.trans
    (h : Publishes xs p q) (k : Publishes ys q r) : Publishes (xs ++ ys) p r := by
  intro drained L hL
  obtain ⟨M, hLM, hM⟩ := h drained L hL
  obtain ⟨N, hMN, hN⟩ := k drained M hM
  exact ⟨N, hLM.trans hMN, hN⟩

variable {a a' : Adapter α β}

/-- A step that touches neither clock, the pending samples nor the vector. -/
theorem publishes_frame (he : a'.epoch = a.epoch)
    (hm : a'.emitted = a.emitted) (hs : a'.endSample = a.endSample) (hr : a'.raw = a.raw) :
    Publishes [] (a, out) (a', out) := by
  intro drained L hL
  exact ⟨L, Ledger.Advances.refl L,
    ⟨he.trans hL.epoch, hm.trans hL.emitted, hs.trans hL.stop, hr.trans hL.raw, hL.cells,
      hL.nonempty⟩⟩

/-- Publishing the front of the pending samples. -/
theorem publishes_put {samples : List α} {kind : OutputKind}
    (he : a'.epoch = a.epoch) (hm : a'.emitted = a.emitted + samples.length)
    (hs : a'.endSample = a.endSample) (hr : a'.raw = a.raw.drop samples.length)
    (hlen : samples.length ≤ a.raw.length)
    (horig : kind.isRaw = true → samples = a.raw.take samples.length) :
    Publishes [] (a, out) (a', put out ⟨a.epoch, a.emitted, samples, kind⟩) := by
  intro drained L hL
  rw [hL.raw] at hlen horig
  refine ⟨L.publish kind samples hlen horig, L.advances_publish kind samples hlen horig, ?_⟩
  refine ⟨he.trans hL.epoch, ?_, hs.trans hL.stop, ?_, ?_, ?_⟩
  · rw [hm, hL.emitted]
    exact add_assoc _ _ _
  · rw [hr, hL.raw, Ledger.publish_pending]
  · show L.cells ++ _ = outCells (drained ++ put out _)
    rw [hL.cells, outCells_append, outCells_append, outCells_put, append_assoc,
      Output.cells, hL.epoch, hL.emitted]
  · intro o ho
    rcases mem_append.mp ho with ho | ho
    · exact hL.nonempty o (mem_append_left _ ho)
    · exact put_nonempty (fun p hp => hL.nonempty p (mem_append_right _ hp)) o ho

/-! ## One pass of `pump` -/

/-- What a pass leaves alone. -/
structure Keeps (a a' : Adapter α β) : Prop where
  config : a'.config = a.config
  epoch : a'.epoch = a.epoch
  stop : a'.endSample = a.endSample
  referenceEnd : a'.referenceEnd = a.referenceEnd
  closed : a'.closed = a.closed

theorem Keeps.refl (a : Adapter α β) : Keeps a a := ⟨rfl, rfl, rfl, rfl, rfl⟩

theorem Keeps.trans {b c : Adapter α β} (h : Keeps a b) (k : Keeps b c) : Keeps a c :=
  ⟨k.config.trans h.config, k.epoch.trans h.epoch, k.stop.trans h.stop,
    k.referenceEnd.trans h.referenceEnd, k.closed.trans h.closed⟩

section
variable (a : Adapter α β)

/-- The queues agree with the clocks. -/
structure Wf : Prop where
  raw : a.emitted + a.raw.length = a.endSample
  submitted : a.submitted ≤ a.endSample
  frame : a.processedFrame.length = a.config.frameSamples
  reference : a.referenceStart + a.reference.length = a.referenceEnd
  referenceMax : a.reference.length ≤ a.config.maxReferenceSamples

/-- A failed backend holds nothing back. -/
def Fenced : Prop := a.failed = true → a.raw = []

/-- What was submitted is ahead of what was emitted by the delay not yet skipped. -/
structure Flow : Prop where
  skip : a.skip ≤ a.config.delaySamples
  lag : a.emitted + a.config.delaySamples = a.submitted + a.skip

/-- Everything accepted is published and submitted. -/
structure Released : Prop where
  raw : a.raw = []
  submitted : a.submitted = a.endSample
  skip : a.skip = a.config.delaySamples

end

theorem Released.fenced (h : Released a) : Fenced a := fun _ => h.raw

theorem Released.flow (h : Released a) (hw : Wf a) : Flow a := by
  have hraw := hw.raw
  rw [h.raw, length_nil] at hraw
  exact ⟨h.skip.le, by rw [h.submitted, h.skip]; omega⟩

/-- What every step of a pass does: it leaves the call's part alone, keeps the invariants and
    publishes by the law of the ledger. -/
structure Passes (p q : Adapter α β × List (Output α)) : Prop where
  keeps : Keeps p.1 q.1
  wf : Wf p.1 → Wf q.1
  fenced : Fenced p.1 → Fenced q.1
  publishes : Publishes [] p q

theorem Passes.refl (p : Adapter α β × List (Output α)) : Passes p p :=
  ⟨Keeps.refl p.1, id, id, publishes_frame p.2 rfl rfl rfl rfl⟩

theorem Passes.trans (h : Passes p q) (k : Passes q r) : Passes p r :=
  ⟨h.keeps.trans k.keeps, k.wf ∘ h.wf, k.fenced ∘ h.fenced, h.publishes.trans k.publishes⟩

section
variable (a : Adapter α β)

theorem bypass_passes (reason : BypassReason) (reset : Bool)
    (out : List (Output α)) : Passes (a, out) (a.bypass B reason reset out) ∧
      Released (a.bypass B reason reset out).1 := by
  obtain ⟨b, hh, f, st, h⟩ := bypass_cases B a reason reset out
  rw [h]
  refine ⟨⟨⟨rfl, rfl, rfl, rfl, rfl⟩, fun hw => { hw with submitted := le_rfl },
    fun _ _ => rfl, ?_⟩, ⟨rfl, rfl, rfl⟩⟩
  exact publishes_put out rfl rfl rfl drop_length.symm (le_rfl)
    fun _ => take_length.symm

theorem emitProcessed_passes (out : List (Output α)) : Passes (a, out) (a.emitProcessed out) := by
  obtain ⟨skip, count, st, samples, h, -, hcount, hlen⟩ := emitProcessed_cases a out
  have hle : count ≤ a.raw.length := hcount ▸ min_le_right _ _
  rw [h]
  refine ⟨⟨rfl, rfl, rfl, rfl, rfl⟩, fun hw => { hw with raw := ?_ }, fun hf hfail => ?_, ?_⟩
  · have hraw : a.emitted + a.raw.length = a.endSample := hw.raw
    show a.emitted + samples.length + (a.raw.drop count).length = a.endSample
    rw [length_drop]
    omega
  · show a.raw.drop count = []
    rw [hf hfail, drop_nil]
  · exact publishes_put out rfl rfl rfl (by rw [hlen]) (hlen.trans_le hle) (by intro hk; cases hk)

theorem trimReference_passes (out : List (Output α)) : Passes (a, out) (a.trimReference, out) := by
  refine ⟨⟨rfl, rfl, rfl, rfl, rfl⟩, fun hw => ⟨hw.raw, hw.submitted, hw.frame, ?_, ?_⟩, id,
    publishes_frame out rfl rfl rfl rfl⟩
  · exact (popWhile_total _ _ _).trans hw.reference
  · exact (popWhile_length_le _ _ _).trans hw.referenceMax

end

theorem evictReference_spec (x : α) (hw : Wf a) :
    Wf ({ a.evictReference with
      reference := a.evictReference.reference ++ [x]
      referenceEnd := a.evictReference.referenceEnd + 1 } : Adapter α β) := by
  have hpos : 0 < a.config.maxReferenceSamples :=
    a.config.frame_pos.trans_le a.config.frame_le_reference
  have htotal := popWhile_total
    (fun queue _ => decide (a.config.maxReferenceSamples ≤ queue.length)) a.reference
    a.referenceStart
  have hroom := popWhile_length_lt hpos a.reference a.referenceStart
  have href := hw.reference
  refine ⟨hw.raw, hw.submitted, hw.frame, ?_, ?_⟩
  · simp only [evictReference, length_append, length_singleton]
    omega
  · simp only [evictReference, length_append, length_singleton]
    omega

/-- What holds between the samples of a call, as long as the adapter is open. -/
structure Ready (a : Adapter α β) : Prop where
  wf : Wf a
  fenced : Fenced a
  flow : Flow a
  wait : a.endSample - a.submitted < a.config.maxWaitSamples

theorem Released.ready (h : Released a) (hw : Wf a) : Ready a := by
  have hpos := a.config.frame_pos
  have hle := a.config.frame_le_wait
  exact ⟨hw, h.fenced, h.flow hw, by rw [h.submitted]; omega⟩

theorem publishes_accept (xs : List α) (he : a'.epoch = a.epoch)
    (hm : a'.emitted = a.emitted) (hs : a'.endSample = a.endSample + xs.length)
    (hr : a'.raw = a.raw ++ xs) : Publishes xs (a, out) (a', out) := by
  intro drained L hL
  refine ⟨L.accept xs, L.advances_accept xs, he.trans hL.epoch, hm.trans hL.emitted, ?_, ?_,
    hL.cells, hL.nonempty⟩
  · show a'.endSample = L.cur.start + (L.cur.accepted ++ xs).length
    rw [hs, hL.stop, length_append, add_assoc]
  · rw [hr, hL.raw, Ledger.accept_pending]

/-- What a call does with the samples `xs` it is given. -/
structure Serves (xs : List α) (p q : Adapter α β × List (Output α)) : Prop where
  publishes : Publishes xs p q
  ready : Ready q.1
  config : q.1.config = p.1.config
  closed : q.1.closed = p.1.closed

theorem Serves.trans (h : Serves xs p q) (k : Serves ys q r) : Serves (xs ++ ys) p r :=
  ⟨h.publishes.trans k.publishes, k.ready, k.config.trans h.config, k.closed.trans h.closed⟩

/-- The call takes `xs` in, and the loop goes on from there. -/
theorem Serves.after {b : Adapter α β} {out : List (Output α)}
    (hpub : Publishes xs (a, out) (b, out))
    (h : Serves ys (b, out) q) (hconfig : b.config = a.config) (hclosed : b.closed = a.closed) :
    Serves (xs ++ ys) (a, out) q :=
  ⟨hpub.trans h.publishes, h.ready, h.config.trans hconfig, h.closed.trans hclosed⟩

/-- With nothing pending, what is passed through is accepted and published at once. -/
theorem passThrough_serves (rest : List α) (out : List (Output α)) (hr : Ready a)
    (hfail : a.failed = true) : Serves rest (a, out) (a.passThrough rest out) := by
  have hraw : a.raw = [] := hr.fenced hfail
  have hend := hr.wf.raw
  have hsub := hr.wf.submitted
  have hlag := hr.flow.lag
  have hskip := hr.flow.skip
  rw [hraw, length_nil, add_zero] at hend
  unfold passThrough
  simp only [append_eq]
  refine ⟨?_, ⟨⟨?_, le_rfl, hr.wf.frame, hr.wf.reference, hr.wf.referenceMax⟩,
    fun _ => hraw, ⟨hr.flow.skip, ?_⟩, ?_⟩, rfl, rfl⟩
  · have haccept : Publishes rest (a, out) ({ a with
        raw := a.raw ++ rest
        endSample := a.endSample + rest.length }, out) :=
      publishes_accept out rest rfl rfl rfl rfl
    rw [← append_nil rest]
    refine haccept.trans (publishes_put out ?_ ?_ ?_ ?_ ?_ ?_)
    · rfl
    · simp
    · simp
    · simp [hraw]
    · simp [hraw]
    · simp [hraw]
  · show a.emitted + rest.length + a.raw.length = a.endSample + rest.length
    rw [hraw, length_nil]
    omega
  · show a.emitted + rest.length + a.config.delaySamples = a.endSample + rest.length + a.skip
    omega
  · show a.endSample + rest.length - (a.endSample + rest.length) < a.config.maxWaitSamples
    have := hr.wait
    omega

section

variable [Sample α]

section
variable (a : Adapter α β)

theorem process_passes (out : List (Output α)) : Passes (a, out) (a.process B out).2 ∧
      ((a.process B out).1 = false → Released (a.process B out).2.1) := by
  obtain ⟨b, frame, h, hlen⟩ | ⟨b, frame, st, h, hlen⟩ := process_cases B a out
  · rw [h]
    exact ⟨⟨⟨rfl, rfl, rfl, rfl, rfl⟩, fun hw => { hw with frame := hlen.trans hw.frame }, id,
      publishes_frame out rfl rfl rfl rfl⟩, nofun⟩
  · rw [h]
    obtain ⟨hpass, hrel⟩ := bypass_passes B { a with
      backendHasHistory := true
      backend := b
      processedFrame := frame
      failed := true
      stats := st } .backendFailed false out
    refine ⟨⟨{ hpass.keeps with }, fun hw => hpass.wf { hw with frame := hlen.trans hw.frame },
      fun _ => hrel.fenced, ?_⟩, fun _ => hrel⟩
    refine Publishes.trans (publishes_frame out ?_ ?_ ?_ ?_) hpass.publishes <;> rfl

theorem loadFrames_passes (n : ℕ) (out : List (Output α)) : Passes (a, out) (a.loadFrames n, out) :=
  ⟨⟨rfl, rfl, rfl, rfl, rfl⟩, fun hw => { hw with }, id, publishes_frame out rfl rfl rfl rfl⟩

/-- A frame of `n` samples that the backend has gone through. -/
def submit (n : ℕ) (b : β) (frame : List α) : Adapter α β :=
  { a.loadFrames n with
    backendHasHistory := true
    backend := b
    processedFrame := frame
    submitted := a.submitted + n }

end

variable (stopping : Bool)

/-- The ways a pass can go: nothing to do yet, the reference is given up, the backend fails
    on a frame, or a frame of `n` samples goes through. -/
theorem pumpOnce_cases (a : Adapter α β) (out : List (Output α)) :
    (a.pumpOnce B stopping out = (false, a, out) ∧
      (a.endSample - a.submitted = 0 ∨ stopping = false ∧
        (a.endSample - a.submitted < a.config.frameSamples ∨
          a.endSample - a.submitted < a.config.maxWaitSamples))) ∨
    a.pumpOnce B stopping out = (false, a.bypass B .missingReference true out) ∨
    ∃ n, 0 < n ∧ n ≤ a.endSample - a.submitted ∧
      (n = a.config.frameSamples ∨ n = a.endSample - a.submitted ∧ stopping = true) ∧
      (((a.loadFrames n).process B out).1 = false ∧
          a.pumpOnce B stopping out = (a.loadFrames n).process B out ∨
        ∃ b frame, frame.length = a.processedFrame.length ∧
          ∃ e, e = (a.submit n b frame).emitProcessed out ∧
            a.pumpOnce B stopping out = (true, e.1.trimReference, e.2)) := by
  have hfp := a.config.frame_pos
  unfold pumpOnce
  dsimp only
  split
  · next h =>
    exact .inl ⟨rfl, h.imp id fun h => ⟨h.2, .inl h.1⟩⟩
  · next hwork =>
    split
    · split
      · exact .inr (.inl rfl)
      · next h =>
        refine .inl ⟨rfl, .inr ⟨?_, .inr ?_⟩⟩
        · exact Bool.eq_false_iff.mpr fun hs => h (.inl hs)
        · exact not_le.mp fun hle => h (.inr (.inr hle))
    · refine .inr (.inr ⟨min (a.endSample - a.submitted) a.config.frameSamples, ?_,
        min_le_left _ _, ?_, ?_⟩)
      · omega
      · by_cases hn : a.config.frameSamples ≤ a.endSample - a.submitted
        · exact .inl (min_eq_right hn)
        · refine .inr ⟨min_eq_left (not_le.mp hn).le, ?_⟩
          exact (Bool.not_eq_false _).mp fun hs => hwork (.inr ⟨not_le.mp hn, hs⟩)
      · obtain ⟨b, frame, h, hlen⟩ | ⟨b, frame, st, h, -⟩ := process_cases B
          (a.loadFrames (min (a.endSample - a.submitted) a.config.frameSamples)) out
        · rw [h]
          exact .inr ⟨b, frame, hlen, _, rfl, rfl⟩
        · rw [h]
          exact .inl ⟨rfl, rfl⟩

/-- What a pass does, and how the loop comes to an end: a pass that goes on has submitted
    something, and one that stops leaves nothing to wait for longer than allowed. A full frame
    keeps the lag; only the last, partial frame of a stop does not. -/
theorem pumpOnce_spec (out : List (Output α)) (hw : Wf a) :
    Passes (a, out) (a.pumpOnce B stopping out).2 ∧
      ((a.pumpOnce B stopping out).1 = true →
        a.submitted < (a.pumpOnce B stopping out).2.1.submitted) ∧
      ((a.pumpOnce B stopping out).1 = false →
        (a.pumpOnce B stopping out).2.1.submitted = a.endSample ∨ stopping = false ∧
          a.endSample - (a.pumpOnce B stopping out).2.1.submitted <
            a.config.maxWaitSamples) ∧
      (stopping = false → Flow a → Flow (a.pumpOnce B stopping out).2.1) := by
  have hsub := hw.submitted
  obtain ⟨h, hwait⟩ | h | ⟨n, hpos, hn, hfull, ⟨hfail, h⟩ | ⟨b, frame, hlen, e, he, h⟩⟩ :=
    pumpOnce_cases B stopping a out
  · rw [h]
    refine ⟨Passes.refl _, nofun, fun _ => ?_, fun _ hl => hl⟩
    have hfw := a.config.frame_le_wait
    show a.submitted = a.endSample ∨ _
    rcases hwait with h0 | ⟨hs, hlt | hlt⟩
    · exact .inl (by omega)
    · exact .inr ⟨hs, hlt.trans_le hfw⟩
    · exact .inr ⟨hs, hlt⟩
  · obtain ⟨hpass, hrel⟩ := bypass_passes B a .missingReference true out
    rw [h]
    exact ⟨hpass, nofun, fun _ => .inl (hrel.submitted.trans hpass.keeps.stop),
      fun _ _ => hrel.flow (hpass.wf hw)⟩
  · obtain ⟨hproc, hrel⟩ := process_passes B (a.loadFrames n) out
    have hpass := (loadFrames_passes a n out).trans hproc
    rw [h]
    refine ⟨hpass, fun ht => ?_, fun _ => ?_, fun _ _ => (hrel hfail).flow (hpass.wf hw)⟩
    · rw [hfail] at ht
      cases ht
    · exact .inl ((hrel hfail).submitted.trans hpass.keeps.stop)
  · have hsubmit : Passes (a, out) (a.submit n b frame, out) :=
      ⟨⟨rfl, rfl, rfl, rfl, rfl⟩, fun hw => ⟨hw.raw, show a.submitted + n ≤ a.endSample by omega,
        hlen.trans hw.frame, hw.reference, hw.referenceMax⟩, id,
        publishes_frame out rfl rfl rfl rfl⟩
    have hpass := (hsubmit.trans (emitProcessed_passes _ out)).trans
      (trimReference_passes _ ((a.submit n b frame).emitProcessed out).2)
    obtain ⟨skip, count, st, samples, heq, hskip, hcount, hsamples⟩ :=
      emitProcessed_cases (a.submit n b frame) out
    rw [h, he]
    refine ⟨hpass, fun _ => ?_, nofun, fun hs hl => ?_⟩
    · rw [heq]
      exact Nat.lt_add_of_pos_right hpos
    · have hframe : frame.length = a.config.frameSamples := hlen.trans hw.frame
      have hn' : n = a.config.frameSamples := hfull.resolve_right fun hpart => by
        rw [hs] at hpart
        cases hpart.2
      have hraw := hw.raw
      have hlag := hl.lag
      have hle := hl.skip
      have hskip' : skip = min a.skip frame.length := hskip
      have hcount' : count = min (frame.length - skip) a.raw.length := hcount
      rw [heq]
      constructor
      · show a.skip - skip ≤ a.config.delaySamples
        omega
      · show a.emitted + samples.length + a.config.delaySamples = a.submitted + n + (a.skip - skip)
        omega

/-! ## The loops -/

/-- What the loop does. As many passes as there are unprocessed samples bring it to its `break`,
    and without a stop it keeps the lag. -/
theorem pumpLoop_spec (fuel : ℕ) (out : List (Output α)) (hw : Wf a) :
    Passes (a, out) (pumpLoop B stopping fuel a out) ∧
      (a.endSample - a.submitted ≤ fuel →
        (pumpLoop B stopping fuel a out).1.submitted = a.endSample ∨ stopping = false ∧
          a.endSample - (pumpLoop B stopping fuel a out).1.submitted < a.config.maxWaitSamples) ∧
      (stopping = false → Flow a → Flow (pumpLoop B stopping fuel a out).1) := by
  induction fuel generalizing a out with
  | zero =>
    have hsub := hw.submitted
    exact ⟨Passes.refl _, fun _ => .inl (show a.submitted = a.endSample by omega), fun _ hl => hl⟩
  | succ fuel ih =>
    obtain ⟨hpass, hgo, hstop, hflow⟩ := pumpOnce_spec B stopping out hw
    unfold pumpLoop
    dsimp only
    split
    · next hagain =>
      obtain ⟨hrest, hexit, hflow'⟩ := ih (a.pumpOnce B stopping out).2.2 (hpass.wf hw)
      refine ⟨hpass.trans hrest, fun hfuel => ?_, fun hs hl => hflow' hs (hflow hs hl)⟩
      have hlt := hgo hagain
      have hend : (a.pumpOnce B stopping out).2.1.endSample = a.endSample := hpass.keeps.stop
      have hnext := hexit (by rw [hend]; omega)
      rwa [hend, hpass.keeps.config] at hnext
    · next hbreak =>
      exact ⟨hpass, fun _ => hstop (Bool.eq_false_iff.mpr hbreak), hflow⟩

/-- The loop of `pump` ends by its own conditions. -/
theorem pump_exit (out : List (Output α)) (hw : Wf a) : Passes (a, out) (a.pump B stopping out) ∧
      ((a.pump B stopping out).1.submitted = a.endSample ∨ stopping = false ∧
        a.endSample - (a.pump B stopping out).1.submitted < a.config.maxWaitSamples) ∧
      (stopping = false → Flow a → Flow (a.pump B stopping out).1) := by
  unfold pump
  split
  · obtain ⟨hpass, hrel⟩ := bypass_passes B a .backendFailed false out
    exact ⟨hpass, .inl (hrel.submitted.trans hpass.keeps.stop), fun _ _ => hrel.flow (hpass.wf hw)⟩
  · obtain ⟨hpass, hexit, hflow⟩ := pumpLoop_spec B stopping (a.endSample - a.submitted) out hw
    exact ⟨hpass, hexit (le_rfl), hflow⟩

theorem pump_serves (hw : Wf a) (hf : Fenced a) (hl : Flow a) :
    Serves [] (a, out) (a.pump B false out) := by
  obtain ⟨hpass, hexit, hflow⟩ := pump_exit B false out hw
  refine ⟨hpass.publishes, ⟨hpass.wf hw, hpass.fenced hf, hflow rfl hl, ?_⟩, hpass.keeps.config,
    hpass.keeps.closed⟩
  have hpos := a.config.frame_pos
  have hle := a.config.frame_le_wait
  rw [hpass.keeps.stop, hpass.keeps.config]
  show a.endSample - _ < a.config.maxWaitSamples
  rcases hexit with h | ⟨-, h⟩
  · omega
  · exact h

theorem renderLoop_serves (stop : ℕ) (xs : List α) (out : List (Output α)) (hr : Ready a) :
    Serves [] (a, out) (renderLoop B stop xs a out) := by
  induction xs generalizing a out with
  | nil => exact ⟨publishes_frame out rfl rfl rfl rfl, hr, rfl, rfl⟩
  | cons x xs ih =>
    unfold renderLoop
    split
    · exact ⟨publishes_frame out rfl rfl rfl rfl,
        ⟨⟨hr.wf.raw, hr.wf.submitted, hr.wf.frame, rfl, Nat.zero_le _⟩, hr.fenced,
          ⟨hr.flow.skip, hr.flow.lag⟩, hr.wait⟩, rfl, rfl⟩
    · have hpump := pump_serves B out (evictReference_spec x hr.wf) hr.fenced
        ⟨hr.flow.skip, hr.flow.lag⟩
      refine Serves.after (publishes_frame out ?_ ?_ ?_ ?_) (hpump.trans (ih _ hpump.ready)) ?_ ?_
        <;> rfl

theorem captureLoop_serves (xs : List α) (out : List (Output α)) (hr : Ready a) :
    Serves xs (a, out) (captureLoop B xs a out) := by
  induction xs generalizing a out with
  | nil => exact ⟨publishes_frame out rfl rfl rfl rfl, hr, rfl, rfl⟩
  | cons x xs ih =>
    unfold captureLoop
    split
    · next hfail =>
      exact passThrough_serves (x :: xs) out hr hfail
    · next hok =>
      have hend := hr.wf.raw
      have hsub := hr.wf.submitted
      have hwf : Wf ({ a with raw := a.raw ++ [x], endSample := a.endSample + 1 } :
          Adapter α β) := by
        refine ⟨?_, Nat.le_succ_of_le hsub, hr.wf.frame, hr.wf.reference, hr.wf.referenceMax⟩
        show a.emitted + (a.raw ++ [x]).length = a.endSample + 1
        rw [length_append, length_singleton]
        omega
      have hpump := pump_serves B out hwf (fun hfail => absurd hfail hok)
        ⟨hr.flow.skip, hr.flow.lag⟩
      refine Serves.after (publishes_accept out [x] ?_ ?_ ?_ ?_) (hpump.trans (ih _ hpump.ready))
        ?_ ?_ <;> rfl

theorem flushDelay_passes (fuel : ℕ) (a : Adapter α β) (out : List (Output α)) :
    Passes (a, out) (flushDelay B fuel a out) := by
  induction fuel generalizing a out with
  | zero => exact Passes.refl _
  | succ fuel ih =>
    unfold flushDelay
    split
    · exact Passes.refl _
    · have hpad : Passes (a, out) (a.padFrames, out) :=
        ⟨⟨rfl, rfl, rfl, rfl, rfl⟩, fun hw => { hw with }, id, publishes_frame out rfl rfl rfl rfl⟩
      have hproc := hpad.trans (process_passes B a.padFrames out).1
      dsimp only
      generalize a.padFrames.process B out = r at *
      split
      · exact hproc
      · exact hproc.trans ((emitProcessed_passes _ _).trans (ih _ _))

theorem finish_spec (hw : Wf a) (hopen : a.closed = false) :
    Publishes [] (a, out) (a.finish B out) ∧ Wf (a.finish B out).1 ∧
      (a.finish B out).1.raw = [] ∧ (a.finish B out).1.closed = true ∧
      (a.finish B out).1.config = a.config := by
  unfold finish
  rw [if_neg (by rw [hopen]; exact Bool.false_ne_true)]
  dsimp only
  have hpass := (pump_exit B true out hw).1.trans (flushDelay_passes B
    (((a.pump B true out).1.config.delaySamples + (a.pump B true out).1.config.frameSamples - 1) /
        (a.pump B true out).1.config.frameSamples + 1) (a.pump B true out).1
    (a.pump B true out).2)
  generalize flushDelay B _ (a.pump B true out).1 (a.pump B true out).2 = r at *
  have hwf := hpass.wf hw
  split
  · next hempty =>
    refine ⟨hpass.publishes.trans (publishes_frame _ rfl rfl rfl rfl), ?_, hempty, rfl,
      hpass.keeps.config⟩
    exact ⟨hwf.raw, hwf.submitted, hwf.frame, Nat.add_zero _, Nat.zero_le _⟩
  · obtain ⟨hbypass, hrel⟩ := bypass_passes B r.1 .backendFailed false r.2
    have hall := hpass.trans hbypass
    have hwb := hall.wf hw
    refine ⟨hall.publishes.trans (publishes_frame _ rfl rfl rfl rfl), ?_, hrel.raw, rfl,
      hall.keeps.config⟩
    exact ⟨hwb.raw, hwb.submitted, hwb.frame, Nat.add_zero _, Nat.zero_le _⟩

end

end Adapter

end FlyOnTheWall.Aec
