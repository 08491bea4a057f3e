/-
  Whole runs of the echo-cancellation adapter: any sequence of `push_render`,
  `push_capture`, `flush_reference_wait`, `reset` and `finish`, with the caller taking
  intervals from its vector in between.

  A `Session` is the adapter with the caller's vector and a record of what happened: the
  intervals already taken, and the microphone samples each epoch accepted. `session_correct`
  says what every such run guarantees, whatever the backend does.
-/
import FlyOnTheWall.Pipeline.AecInvariant

namespace FlyOnTheWall.Aec

open FlyOnTheWall.Lib Adapter List

variable {α β : Type}

/-- What holds of an adapter between calls. -/
structure Adapter.Settled (a : Adapter α β) : Prop where
  wf : Wf a
  live : a.closed = false → Ready a
  shut : a.closed = true → a.raw = []

variable {a : Adapter α β}

theorem Adapter.Ready.settled (h : Ready a) (hopen : a.closed = false) : Settled a :=
  ⟨h.wf, fun _ => h, fun hc => absurd (hopen.symm.trans hc) Bool.false_ne_true⟩

/-- The samples retained are fewer than the delay and the wait allow, and the reference
    fits its own limit. -/
theorem Adapter.Ready.buffered_lt (h : Ready a) :
    a.bufferedSamples < a.config.delaySamples + a.config.maxWaitSamples +
      a.config.maxReferenceSamples := by
  have hraw := h.wf.raw
  have hlag := h.flow.lag
  have hwait := h.wait
  have href := h.wf.referenceMax
  unfold bufferedSamples
  omega

theorem Adapter.Settled.buffered_lt (h : Settled a) :
    a.bufferedSamples < a.config.delaySamples + a.config.maxWaitSamples +
      a.config.maxReferenceSamples := by
  cases hc : a.closed with
  | false => exact (h.live hc).buffered_lt
  | true =>
    have href := h.wf.referenceMax
    have hpos := a.config.frame_pos
    have hle := a.config.frame_le_wait
    unfold bufferedSamples
    rw [h.shut hc, length_nil]
    omega

/-- An adapter, its caller, and what was accepted. -/
structure Session (α β : Type) where
  adapter : Adapter α β
  out : List (Output α)
  drained : List (Output α)
  past : List (Take α)
  cur : Take α

inductive Call (α : Type) where
  | pushRender (epoch start : ℕ) (samples : List α)
  | pushCapture (epoch start : ℕ) (samples : List α)
  | flushReferenceWait
  | reset (epoch start : ℕ)
  | finish
  /-- The caller takes the first `n` intervals from its vector. -/
  | drain (n : ℕ)

namespace Session

variable (s : Session α β)

/-- Everything published so far. -/
def cells : List (Cell OutputKind α) := outCells (s.drained ++ s.out)

def takes : List (Take α) := s.past ++ [s.cur]

def start (a : Adapter α β) : Session α β := ⟨a, [], [], [], ⟨a.epoch, a.endSample, []⟩⟩

variable [Sample α] (B : Backend α β)

def step (s : Session α β) : Call α → Session α β × Except Error Unit
  | .pushRender epoch start samples =>
    let r := s.adapter.pushRender B epoch start samples s.out
    ({ s with adapter := r.1.1, out := r.1.2 }, r.2)
  | .pushCapture epoch start samples =>
    let r := s.adapter.pushCapture B epoch start samples s.out
    match r.2 with
    | .error e => ({ s with adapter := r.1.1, out := r.1.2 }, .error e)
    | .ok _ =>
      ({ s with
          adapter := r.1.1
          out := r.1.2
          cur := { s.cur with accepted := s.cur.accepted ++ samples } }, .ok ())
  | .flushReferenceWait =>
    let r := s.adapter.flushReferenceWait B s.out
    ({ s with adapter := r.1, out := r.2 }, .ok ())
  | .reset epoch start =>
    let r := s.adapter.reset B epoch start s.out
    match r.2 with
    | .error e => ({ s with adapter := r.1.1, out := r.1.2 }, .error e)
    | .ok _ =>
      ({ s with
          adapter := r.1.1
          out := r.1.2
          past := s.past ++ [s.cur]
          cur := ⟨epoch, start, []⟩ }, .ok ())
  | .finish =>
    let r := s.adapter.finish B s.out
    ({ s with adapter := r.1, out := r.2 }, .ok ())
  | .drain n => ({ s with drained := s.drained ++ s.out.take n, out := s.out.drop n }, .ok ())

def run (s : Session α β) (calls : List (Call α)) : Session α β :=
  calls.foldl (fun s call => (s.step B call).1) s

/-- What every call keeps: the adapter is settled, and what it accepted and published is
    a ledger. -/
structure Inv : Prop where
  settled : Settled s.adapter
  ledger : ∃ L : MicLedger α, L.past = s.past ∧ L.cur = s.cur ∧
    Shows s.drained L s.adapter s.out

variable {s : Session α β} {q : Adapter α β × List (Output α)} {epoch start : ℕ}

omit [Sample α] in
/-- A call that accepts `xs` in the current epoch. -/
theorem Inv.advance {xs : List α} (h : Inv s)
    (hset : Settled q.1) (hpub : Publishes xs (s.adapter, s.out) q) :
    Inv { s with
      adapter := q.1
      out := q.2
      cur := { s.cur with accepted := s.cur.accepted ++ xs } } := by
  obtain ⟨L, hpast, hcur, hL⟩ := h.ledger
  obtain ⟨M, hLM, hM⟩ := hpub s.drained L hL
  exact ⟨hset, M, hLM.past_eq.trans hpast, by rw [hLM.cur_eq, hcur], hM⟩

omit [Sample α] in
/-- A call that accepts nothing. -/
theorem Inv.publish (h : Inv s) (hset : Settled q.1)
    (hpub : Publishes [] (s.adapter, s.out) q) : Inv { s with adapter := q.1, out := q.2 } := by
  have hadv := h.advance hset hpub
  simpa only [append_nil] using hadv

/-! ## One call -/

theorem validate_open {samples : List α} {u : Unit}
    (h : a.validate epoch start samples = .ok u) : a.closed = false := by
  unfold validate at h
  split at h
  · cases h
  · next hc =>
    exact Bool.eq_false_iff.mpr hc

/-- A refused block changes nothing; an accepted one goes through the loop. -/
theorem pushRender_cases (a : Adapter α β) (epoch start : ℕ) (samples : List α)
    (out : List (Output α)) :
    (∃ r, a.pushRender B epoch start samples out = ((a, out), r)) ∨
    a.closed = false ∧ a.pushRender B epoch start samples out =
      (renderLoop B (start + samples.length) samples (a.skipGap start) out, .ok ()) := by
  unfold pushRender
  cases hv : a.validate epoch start samples with
  | error e => exact .inl ⟨_, rfl⟩
  | ok u =>
    dsimp only
    split
    · exact .inl ⟨_, rfl⟩
    · split
      · exact .inl ⟨_, rfl⟩
      · exact .inr ⟨validate_open hv, rfl⟩

omit [Sample α] in
theorem skipGap_serves (start : ℕ) (out : List (Output α)) (hr : Ready a) :
    Serves [] (a, out) (a.skipGap start, out) := by
  unfold skipGap
  split
  · exact ⟨publishes_frame out rfl rfl rfl rfl,
      ⟨⟨hr.wf.raw, hr.wf.submitted, hr.wf.frame, rfl, Nat.zero_le _⟩, hr.fenced,
        ⟨hr.flow.skip, hr.flow.lag⟩, hr.wait⟩, rfl, rfl⟩
  · exact ⟨publishes_frame out rfl rfl rfl rfl, hr, rfl, rfl⟩

theorem pushRender_inv (epoch start : ℕ) (samples : List α) (h : Inv s) :
    Inv (s.step B (.pushRender epoch start samples)).1 := by
  unfold step
  dsimp only
  obtain ⟨r, hr⟩ | ⟨hopen, hr⟩ := pushRender_cases B s.adapter epoch start samples s.out
  · rw [hr]
    exact h
  · have hgap := skipGap_serves start s.out (h.settled.live hopen)
    have hall := hgap.trans
      (renderLoop_serves B (start + samples.length) samples s.out hgap.ready)
    rw [hr]
    exact h.publish (hall.ready.settled (hall.closed.trans hopen)) hall.publishes

theorem pushCapture_cases (a : Adapter α β) (epoch start : ℕ) (samples : List α)
    (out : List (Output α)) :
    (∃ e, a.pushCapture B epoch start samples out = ((a, out), .error e)) ∨
    a.closed = false ∧ a.pushCapture B epoch start samples out =
      (captureLoop B samples a out, .ok ()) := by
  unfold pushCapture
  cases hv : a.validate epoch start samples with
  | error e => exact .inl ⟨e, rfl⟩
  | ok u =>
    dsimp only
    split
    · exact .inl ⟨_, rfl⟩
    · exact .inr ⟨validate_open hv, rfl⟩

theorem pushCapture_inv (epoch start : ℕ) (samples : List α) (h : Inv s) :
    Inv (s.step B (.pushCapture epoch start samples)).1 := by
  unfold step
  obtain ⟨e, hr⟩ | ⟨hopen, hr⟩ := pushCapture_cases B s.adapter epoch start samples s.out
  · simp only [hr]
    exact h
  · have hall := captureLoop_serves B samples s.out (h.settled.live hopen)
    simp only [hr]
    exact h.advance (hall.ready.settled (hall.closed.trans hopen)) hall.publishes

theorem flushReferenceWait_inv (h : Inv s) : Inv (s.step B .flushReferenceWait).1 := by
  unfold step flushReferenceWait
  dsimp only
  split
  · obtain ⟨hpass, hrel⟩ := bypass_passes B s.adapter .missingReference true s.out
    have hwf := hpass.wf h.settled.wf
    exact h.publish ⟨hwf, fun _ => hrel.ready hwf, fun _ => hrel.raw⟩ hpass.publishes
  · exact h

theorem finish_inv (h : Inv s) : Inv (s.step B .finish).1 := by
  unfold step
  cases hc : s.adapter.closed with
  | true =>
    unfold finish
    rw [if_pos hc]
    exact h
  | false =>
    obtain ⟨hpub, hwf, hraw, hclosed, -⟩ := finish_spec B s.out h.settled.wf hc
    refine h.publish ⟨hwf, fun ho => ?_, fun _ => hraw⟩ hpub
    exact absurd (ho.symm.trans hclosed) Bool.false_ne_true

omit [Sample α] in
/-- The reset of an adapter: what is pending is released, and the new epoch starts empty. -/
theorem reset_spec (epoch start : ℕ) (out : List (Output α)) (hw : Wf a)
    (hlater : a.epoch < epoch) :
    (∃ b, (a.reset B epoch start out).2 = .ok b) ∧ Ready (a.reset B epoch start out).1.1 ∧
      (a.reset B epoch start out).1.1.closed = false ∧
      (a.reset B epoch start out).1.1.config = a.config ∧
      ∀ drained L, Shows drained L a out →
        ∃ L', L'.past = L.past ++ [L.cur] ∧ L'.cur = ⟨epoch, start, []⟩ ∧
          Shows drained L' (a.reset B epoch start out).1.1 (a.reset B epoch start out).1.2 := by
  obtain ⟨hpass, hrel⟩ := bypass_passes B a .reset false out
  unfold reset
  rw [if_neg (not_le.mpr hlater)]
  generalize a.bypass B .reset false out = r at *
  have hwf := hpass.wf hw
  obtain ⟨b, f, st, hb⟩ := resetBackend_cases B { r.1 with
    epoch
    endSample := start
    emitted := start
    submitted := start
    reference := []
    referenceStart := start
    referenceEnd := start
    skip := r.1.config.delaySamples
    closed := false }
  have hpos := r.1.config.frame_pos
  have hle := r.1.config.frame_le_wait
  dsimp only
  rw [hb]
  have hraw : r.1.raw = [] := hrel.raw
  refine ⟨⟨_, rfl⟩, ⟨⟨?_, Nat.le_refl _, hwf.frame, rfl, Nat.zero_le _⟩, fun _ => hraw,
    ⟨le_rfl, rfl⟩, ?_⟩, rfl, hpass.keeps.config, ?_⟩
  · show start + r.1.raw.length = start
    rw [hraw]
    rfl
  · show start - start < r.1.config.maxWaitSamples
    omega
  · intro drained L hL
    obtain ⟨M, hLM, hM⟩ := hpass.publishes drained L hL
    have hcur : M.cur = L.cur := by simpa only [append_nil] using hLM.cur_eq
    have hpend : M.pending = [] := hM.raw.symm.trans hraw
    have hturn : M.cur.epoch < epoch := by rwa [hcur, ← hL.epoch]
    refine ⟨M.turn epoch start hturn hpend, ?_, rfl, ⟨rfl, rfl, rfl, ?_, hM.cells, hM.nonempty⟩⟩
    · show M.past ++ [M.cur] = L.past ++ [L.cur]
      rw [hLM.past_eq, hcur]
    · exact hraw

theorem reset_inv (epoch start : ℕ) (h : Inv s) : Inv (s.step B (.reset epoch start)).1 := by
  unfold step
  by_cases hlater : s.adapter.epoch < epoch
  · obtain ⟨⟨b, hok⟩, hready, hclosed, -, hturn⟩ :=
      reset_spec B epoch start s.out h.settled.wf hlater
    simp only [hok]
    obtain ⟨L, hpast, hcur, hL⟩ := h.ledger
    obtain ⟨L', hpast', hcur', hL'⟩ := hturn s.drained L hL
    exact ⟨hready.settled hclosed, L', by rw [hpast', hpast, hcur], hcur', hL'⟩
  · simp only [reset, if_pos (not_lt.mp hlater)]
    exact h

omit [Sample α] in
theorem cells_drain (s : Session α β) (n : ℕ) :
    outCells ((s.drained ++ s.out.take n) ++ s.out.drop n) = s.cells := by
  rw [append_assoc, take_append_drop, cells]

theorem drain_inv (n : ℕ) (h : Inv s) : Inv (s.step B (.drain n)).1 := by
  obtain ⟨L, hpast, hcur, hL⟩ := h.ledger
  refine ⟨h.settled, L, hpast, hcur, hL.epoch, hL.emitted, hL.stop, hL.raw, ?_, ?_⟩
  · exact hL.cells.trans (s.cells_drain n).symm
  · show ∀ o ∈ (s.drained ++ s.out.take n) ++ s.out.drop n, o.samples ≠ []
    rw [append_assoc, take_append_drop]
    exact hL.nonempty

theorem step_inv (call : Call α) (h : Inv s) : Inv (s.step B call).1 := by
  cases call with
  | pushRender epoch start samples => exact pushRender_inv B epoch start samples h
  | pushCapture epoch start samples => exact pushCapture_inv B epoch start samples h
  | flushReferenceWait => exact flushReferenceWait_inv B h
  | reset epoch start => exact reset_inv B epoch start h
  | finish => exact finish_inv B h
  | drain n => exact drain_inv B n h

theorem run_inv (calls : List (Call α)) (h : Inv s) : Inv (s.run B calls) := by
  induction calls generalizing s with
  | nil => exact h
  | cons call calls ih => exact ih (step_inv B call h)

theorem step_config (call : Call α) (h : Inv s) :
    (s.step B call).1.adapter.config = s.adapter.config := by
  cases call with
  | pushRender epoch start samples =>
    obtain ⟨r, hr⟩ | ⟨hopen, hr⟩ := pushRender_cases B s.adapter epoch start samples s.out
    · simp only [step, hr]
    · have hgap := skipGap_serves start s.out (h.settled.live hopen)
      simp only [step, hr]
      exact (hgap.trans (renderLoop_serves B _ samples s.out hgap.ready)).config
  | pushCapture epoch start samples =>
    obtain ⟨e, hr⟩ | ⟨hopen, hr⟩ := pushCapture_cases B s.adapter epoch start samples s.out
    · simp only [step, hr]
    · simp only [step, hr]
      exact (captureLoop_serves B samples s.out (h.settled.live hopen)).config
  | flushReferenceWait =>
    unfold step flushReferenceWait
    dsimp only
    split
    · exact (bypass_passes B s.adapter .missingReference true s.out).1.keeps.config
    · rfl
  | reset epoch start =>
    by_cases hlater : s.adapter.epoch < epoch
    · obtain ⟨⟨b, hok⟩, -, -, hc, -⟩ := reset_spec B epoch start s.out h.settled.wf hlater
      simp only [step, hok]
      exact hc
    · simp only [step, reset, if_pos (not_lt.mp hlater)]
  | finish =>
    cases hc : s.adapter.closed with
    | true => simp only [step, finish, hc, if_true]
    | false => exact (finish_spec B s.out h.settled.wf hc).2.2.2.2
  | drain n => rfl

theorem run_config (calls : List (Call α)) (h : Inv s) :
    (s.run B calls).adapter.config = s.adapter.config := by
  induction calls generalizing s with
  | nil => rfl
  | cons call calls ih => exact (ih (step_inv B call h)).trans (step_config B call h)

/-! ## The contract -/

/-- What a session on an adapter of `config` guarantees, at any point of a run. -/
structure Correct (config : Config) (s : Session α β) : Prop where
  /-- An epoch that was left is published from its first sample to its last, each once and
      in order; -/
  tiled_past : ∀ t ∈ s.past, positions t.epoch s.cells = List.range' t.start t.accepted.length
  /-- the current one up to some point. -/
  tiled_cur : ∃ n ≤ s.cur.accepted.length,
    positions s.cur.epoch s.cells = List.range' s.cur.start n
  epochs : (s.takes.map Take.epoch).Pairwise (· < ·)
  ordered : (s.cells.map Cell.epoch).Pairwise (· ≤ ·)
  /-- Nothing else is published, and no interval is empty. -/
  known : ∀ c ∈ s.cells, ∃ t ∈ s.takes, c.epoch = t.epoch
  nonempty : ∀ o ∈ s.drained ++ s.out, o.samples ≠ []
  raw_original : ∀ t ∈ s.takes, t.Original (fun kind => kind.isRaw = true) s.cells
  after_finish : positions s.cur.epoch (s.step B .finish).1.cells =
    List.range' s.cur.start s.cur.accepted.length
  after_reset : ∀ epoch start, s.adapter.epoch < epoch →
    positions s.cur.epoch (s.step B (.reset epoch start)).1.cells =
      List.range' s.cur.start s.cur.accepted.length
  bounded : s.adapter.bufferedSamples <
    config.delaySamples + config.maxWaitSamples + config.maxReferenceSamples
  /-- Also inside a call, after any of its samples and with the next one in hand. -/
  bounded_during : s.adapter.closed = false → ∀ samples,
    (captureLoop B samples s.adapter s.out).1.bufferedSamples + 1 ≤
        config.delaySamples + config.maxWaitSamples + config.maxReferenceSamples ∧
      ∀ stop, (renderLoop B stop samples s.adapter s.out).1.bufferedSamples + 1 ≤
        config.delaySamples + config.maxWaitSamples + config.maxReferenceSamples
  rejected : ∀ call e, (s.step B call).2 = .error e → (s.step B call).1 = s

theorem step_rejected (s : Session α β) (call : Call α) (e : Error)
    (h : (s.step B call).2 = .error e) : (s.step B call).1 = s := by
  cases call with
  | pushRender epoch start samples =>
    obtain ⟨r, hr⟩ | ⟨-, hr⟩ := pushRender_cases B s.adapter epoch start samples s.out
    · simp only [step, hr]
    · simp only [step, hr] at h
      cases h
  | pushCapture epoch start samples =>
    obtain ⟨e', hr⟩ | ⟨-, hr⟩ := pushCapture_cases B s.adapter epoch start samples s.out
    · simp only [step, hr]
    · simp only [step, hr] at h
      cases h
  | reset epoch start =>
    by_cases hlater : epoch ≤ s.adapter.epoch
    · simp only [step, reset, if_pos hlater]
    · simp only [step, reset, if_neg hlater] at h
      cases h
  | flushReferenceWait | finish | drain => cases h

theorem finish_closed (s : Session α β) (h : Inv s) :
    (s.step B .finish).1.adapter.closed = true := by
  cases hc : s.adapter.closed with
  | true => simp only [step, finish, hc, if_true]
  | false => exact (finish_spec B s.out h.settled.wf hc).2.2.2.1

omit [Sample α] in
/-- Nothing pending: the current epoch is published to its end. -/
theorem Inv.tiled_of_raw_nil (h : Inv s) (hraw : s.adapter.raw = []) :
    positions s.cur.epoch s.cells = range' s.cur.start s.cur.accepted.length := by
  obtain ⟨L, -, hcur, hL⟩ := h.ledger
  have hlen := L.pending_length
  rw [← hL.raw, hraw, length_nil, add_zero] at hlen
  have htiled := L.tiled_cur
  rwa [hlen, hcur, hL.cells] at htiled

theorem Inv.correct (h : Inv s) : Correct B s.adapter.config.toConfig s := by
  obtain ⟨L, hpast, hcur, hL⟩ := h.ledger
  have hcells : L.cells = s.cells := hL.cells
  have htakes : L.past ++ [L.cur] = s.takes := by rw [hpast, hcur, takes]
  refine
    { tiled_past := ?_
      tiled_cur := ⟨L.done, hcur ▸ L.done_le, ?_⟩
      epochs := htakes ▸ L.epochs
      ordered := hcells ▸ L.ordered
      known := ?_
      nonempty := hL.nonempty
      raw_original := ?_
      after_finish := ?_
      after_reset := ?_
      bounded := h.settled.buffered_lt
      bounded_during := ?_
      rejected := step_rejected B s }
  · intro t ht
    rw [← hcells]
    exact L.tiled_past t (hpast ▸ ht)
  · rw [← hcells, ← hcur]
    exact L.tiled_cur
  · rw [← hcells, ← htakes]
    exact L.known
  · rw [← hcells, ← htakes]
    exact L.original
  · have hfin := finish_inv B h
    exact hfin.tiled_of_raw_nil (hfin.settled.shut (finish_closed B s h))
  · intro epoch start hlater
    obtain ⟨⟨b, hok⟩, -⟩ := reset_spec B epoch start s.out h.settled.wf hlater
    obtain ⟨M, hpast', -, hM⟩ := (reset_inv B epoch start h).ledger
    have hmem : s.cur ∈ M.past := by
      rw [hpast']
      simp only [step, hok]
      exact mem_append_right _ (mem_singleton_self _)
    have htiled := M.tiled_past s.cur hmem
    rwa [hM.cells] at htiled
  · intro hopen samples
    have hcap := captureLoop_serves B samples s.out (h.settled.live hopen)
    refine ⟨hcap.config ▸ hcap.ready.buffered_lt, fun stop => ?_⟩
    have hren := renderLoop_serves B stop samples s.out (h.settled.live hopen)
    exact hren.config ▸ hren.ready.buffered_lt

theorem start_inv {backend : β} {config : Config}
    (h : Adapter.new B backend config epoch start = .ok a) :
    Inv (Session.start a) ∧ a.config.toConfig = config := by
  unfold Adapter.new at h
  split at h
  · cases h
    refine ⟨⟨Ready.settled ⟨⟨rfl, Nat.le_refl _, length_replicate, rfl, Nat.zero_le _⟩,
      fun _ => rfl, ⟨le_rfl, rfl⟩, ?_⟩ rfl,
      Ledger.empty epoch start, rfl, rfl, ⟨rfl, rfl, rfl, rfl, rfl, nofun⟩⟩, rfl⟩
    show start - start < config.maxWaitSamples
    omega
  · cases h

end Session

open Session in
/-- Whatever the backend does and in whatever order the methods are called, the published
    intervals of each epoch tile the accepted microphone samples, raw intervals carry the
    originals, `finish` and `reset` leave nothing behind, what is retained is bounded, and a
    rejected call changes nothing. -/
theorem session_correct [Sample α] (B : Backend α β) (backend : β) (config : Config)
    (epoch start : ℕ) (a : Adapter α β)
    (h : Adapter.new B backend config epoch start = .ok a) (calls : List (Call α)) :
    Correct B config ((Session.start a).run B calls) := by
  obtain ⟨hinv, hconfig⟩ := start_inv B h
  have hrun := (run_inv B calls hinv).correct B
  rwa [run_config B calls hinv, show (Session.start a).adapter.config.toConfig = config from
    hconfig] at hrun

/-- One frame is cleaned, the backend fails on the second, the rest and the next epoch's
    samples come out as they were recorded. -/
def copyCalls : List (Call (Option ℤ)) :=
  [.pushRender 1 0 [some 0, some 0, some 0, some 0], .pushCapture 1 0 [some 5, some 6, some 7],
    .pushCapture 1 3 [some 8, some 9], .drain 1, .reset 2 100, .pushCapture 2 100 [some 3],
    .finish]

theorem session_correct_copy : ∃ a, Adapter.new copyBackend 1 ⟨2, 1, 3, 4⟩ 1 0 = .ok a ∧
      ((Session.start a).run copyBackend copyCalls).drained ++
          ((Session.start a).run copyBackend copyCalls).out =
        [⟨1, 0, [some 6], .cleaned⟩, ⟨1, 1, [some 6, some 7, some 8, some 9],
          .raw .backendFailed⟩, ⟨2, 100, [some 3], .raw .missingReference⟩] ∧
      Session.Correct copyBackend ⟨2, 1, 3, 4⟩
        ((Session.start a).run copyBackend copyCalls) :=
  ⟨_, rfl, by decide, session_correct copyBackend 1 ⟨2, 1, 3, 4⟩ 1 0 _ rfl copyCalls⟩

end FlyOnTheWall.Aec
