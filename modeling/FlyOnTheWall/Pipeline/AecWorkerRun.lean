/-
  What the echo-cancellation worker guarantees over its interleavings.

  The owner's queue of original samples and the published intervals form a `Ledger`, the
  fence links a result in flight to the epoch it was computed for, and both are invariants
  of every step but one: the owner publishes an offered block past what it still holds when
  the thread stops between its `poll` and its look at the liveness flag.
  `worker_out_of_order` is that run. `worker_correct` is the guarantee for every run in
  which the owner holds nothing at the moment it finds the thread stopped; it includes that
  what is held comes out, with a cancel, a reset, or a `poll` at the deadline or with the
  thread gone.
-/
import FlyOnTheWall.Pipeline.AecWorker

namespace FlyOnTheWall.AecWorker

open FlyOnTheWall.Lib List System
open FlyOnTheWall.Aec (Sample Backend Adapter BypassReason OutputKind Output)

variable {α β : Type}

/-! ## What is pending -/

/-- The samples still to be published. -/
def heldSamples (ps : List (Pending α)) : List α := ps.flatMap fun p => p.samples.drop p.used

/-- The pending blocks lie one after the other from `pos` to `stop`, none used up. -/
def PendingFrom : ℕ → List (Pending α) → ℕ → Prop
  | pos, [], stop => pos = stop
  | pos, p :: ps, stop =>
    p.start + p.used = pos ∧ p.used < p.samples.length ∧
      PendingFrom (p.start + p.samples.length) ps stop

@[simp] theorem heldSamples_nil : heldSamples ([] : List (Pending α)) = [] := rfl

@[simp] theorem heldSamples_cons (p : Pending α) (ps : List (Pending α)) :
    heldSamples (p :: ps) = p.samples.drop p.used ++ heldSamples ps := rfl

theorem heldSamples_append (ps qs : List (Pending α)) :
    heldSamples (ps ++ qs) = heldSamples ps ++ heldSamples qs := flatMap_append

variable {pos stop : ℕ} {ps : List (Pending α)}

theorem PendingFrom.snoc (h : PendingFrom pos ps stop) {p : Pending α} (hstart : p.start = stop)
    (hused : p.used = 0) (hne : p.samples ≠ []) :
    PendingFrom pos (ps ++ [p]) (stop + p.samples.length) := by
  induction ps generalizing pos with
  | nil =>
    refine ⟨?_, ?_, ?_⟩
    · rw [hused, hstart]
      exact h.symm
    · rw [hused]
      exact length_pos_iff.mpr hne
    · show p.start + p.samples.length = stop + p.samples.length
      rw [hstart]
  | cons q qs ih => exact ⟨h.1, h.2.1, ih h.2.2⟩

theorem consume_spec (h : PendingFrom pos ps stop) {n : ℕ} (hn : n ≤ (heldSamples ps).length) :
    PendingFrom (pos + n) (consume n ps) stop ∧
      heldSamples (consume n ps) = (heldSamples ps).drop n := by
  induction ps generalizing pos n with
  | nil =>
    have hz : n = 0 := by simpa using hn
    rw [hz]
    exact ⟨h, rfl⟩
  | cons p ps ih =>
    obtain ⟨hpos, hused, hrest⟩ := h
    rw [heldSamples_cons, length_append, length_drop] at hn
    unfold consume
    by_cases hz : n = 0
    · rw [if_pos hz, hz]
      exact ⟨⟨hpos, hused, hrest⟩, rfl⟩
    · rw [if_neg hz]
      by_cases hall : p.used + min n (p.samples.length - p.used) = p.samples.length
      · rw [if_pos hall]
        have hmin : min n (p.samples.length - p.used) = p.samples.length - p.used := by omega
        have hle : p.samples.length - p.used ≤ n := by omega
        obtain ⟨hchain, hheld⟩ := ih hrest (n := n - (p.samples.length - p.used)) (by omega)
        rw [hmin]
        refine ⟨?_, ?_⟩
        · rwa [show pos + n = p.start + p.samples.length + (n - (p.samples.length - p.used)) by
            omega]
        · have hfront : (p.samples.drop p.used).drop n = [] :=
            drop_eq_nil_of_le (by rw [length_drop]; exact hle)
          rw [hheld, heldSamples_cons, drop_append, hfront, length_drop, nil_append]
      · rw [if_neg hall]
        have hlt : n < p.samples.length - p.used := by omega
        rw [min_eq_left hlt.le]
        refine ⟨⟨?_, ?_, hrest⟩, ?_⟩
        · show p.start + (p.used + n) = pos + n
          omega
        · show p.used + n < p.samples.length
          omega
        · rw [heldSamples_cons, heldSamples_cons, drop_append_of_le_length
            (by rw [length_drop]; exact hlt.le), drop_drop]

/-! ## What is published -/

def Entry.cells (e : Entry α) : List (Cell Provenance α) :=
  cellsFrom e.output.epoch e.source e.output.startSample e.output.samples

def entryCells (es : List (Entry α)) : List (Cell Provenance α) := es.flatMap Entry.cells

theorem entryCells_append (es fs : List (Entry α)) :
    entryCells (es ++ fs) = entryCells es ++ entryCells fs := flatMap_append

theorem entryCells_singleton (e : Entry α) : entryCells [e] = e.cells := by
  simp [entryCells]

/-- What the owner publishes itself are the original samples. -/
abbrev OwnerLedger (α : Type) := Ledger Provenance α fun source => source = .owner

namespace System

def cells (s : System α β) : List (Cell Provenance α) := entryCells s.published

def takes (s : System α β) : List (Take α) := s.past ++ [s.cur]

/-- The ledger of the owner. -/
structure Shows (L : OwnerLedger α) (s : System α β) : Prop where
  past : L.past = s.past
  cur : L.cur = s.cur
  epoch : s.epoch = s.cur.epoch
  next : s.next = s.cur.start + s.cur.accepted.length
  held : heldSamples s.pending = L.pending
  chain : PendingFrom (s.cur.start + L.done) s.pending s.next
  retained : s.retained = L.pending.length
  cells : L.cells = s.cells

theorem drain_pending (ps : List (Pending α)) (L : OwnerLedger α)
    (reason : BypassReason) (hheld : heldSamples ps = L.pending)
    (hpos : pos = L.cur.start + L.done) (hchain : PendingFrom pos ps stop) :
    ∃ L', L.Advances [] L' ∧ L'.pending = [] ∧
      L'.cells = L.cells ++ entryCells (ps.map fun p =>
        ⟨⟨L.cur.epoch, p.start + p.used, p.samples.drop p.used, .raw reason⟩, .owner⟩) := by
  induction ps generalizing pos L with
  | nil => exact ⟨L, Ledger.Advances.refl L, hheld.symm, by simp [entryCells]⟩
  | cons p ps ih =>
    obtain ⟨hstart, hused, hrest⟩ := hchain
    rw [heldSamples_cons] at hheld
    have hlen : (p.samples.drop p.used).length ≤ L.pending.length := by
      rw [← hheld, length_append]
      exact Nat.le_add_right _ _
    have horig : Provenance.owner = .owner →
        p.samples.drop p.used = L.pending.take (p.samples.drop p.used).length := by
      intro _
      rw [← hheld, take_left]
    have hdone : p.start + p.samples.length =
        L.cur.start + (L.done + (p.samples.drop p.used).length) := by
      rw [length_drop]
      omega
    obtain ⟨L', hadv, hnil, hcells⟩ := ih
      (L.publish .owner (p.samples.drop p.used) hlen horig)
      (by rw [Ledger.publish_pending, ← hheld, drop_left]) hdone hrest
    refine ⟨L', (L.advances_publish _ _ hlen horig).trans hadv, hnil, ?_⟩
    rw [hcells]
    show L.cells ++ _ ++ _ = _
    rw [map_cons, ← singleton_append (l := map _ ps), entryCells_append,
      entryCells_singleton, append_assoc, Entry.cells, hstart, hpos]
    rfl

variable {s t : System α β} {L : OwnerLedger α}

/-- A fallback leaves nothing pending and publishes the originals. -/
theorem fallback_shows (reason : BypassReason) (h : Shows L s) :
    ∃ L', Shows L' (s.fallback reason) := by
  obtain ⟨L', hadv, hnil, hcells⟩ := drain_pending s.pending L reason h.held
    (by rw [h.cur]) h.chain
  have hcur : L'.cur = s.cur := by
    rw [hadv.cur_eq, append_nil, h.cur]
  have hdone := L'.pending_length
  rw [hnil, length_nil, add_zero, hcur] at hdone
  have hpub : L'.cells = entryCells (s.published ++ s.pending.map fun p =>
      ⟨⟨s.epoch, p.start + p.used, p.samples.drop p.used, .raw reason⟩, .owner⟩) := by
    rw [hcells, entryCells_append, h.cells, cells, h.cur, ← h.epoch]
  refine ⟨L', ?_⟩
  unfold fallback
  split <;>
  · exact ⟨hadv.past_eq.trans h.past, hcur, h.epoch, h.next, hnil.symm,
      show s.cur.start + L'.done = s.next by rw [hdone, h.next], by rw [hnil]; rfl, hpub⟩

/-- What the rest of a fallback is. -/
theorem fallback_cases (s : System α β) (reason : BypassReason) :
    ∃ fence commands closed published, s.fallback reason =
        { s with fence, commands, closed, published, pending := [], retained := 0 } ∧
      published = s.published ++ s.pending.map (fun p =>
        ⟨⟨s.epoch, p.start + p.used, p.samples.drop p.used, .raw reason⟩, .owner⟩) ∧
      (s.fence < fence ∧ commands = s.commands ∧ closed = s.closed ∨
        commands = false ∧ closed = true) := by
  unfold fallback
  split
  · exact ⟨_, _, _, _, rfl, rfl, Or.inl ⟨Nat.lt_succ_self _, rfl, rfl⟩⟩
  · exact ⟨_, _, _, _, rfl, rfl, .inr ⟨rfl, rfl⟩⟩

variable {block : Output α}

/-- An accepted block starts where the pending samples start, and uses up its length. -/
theorem accept_cases (h : s.accept block = some t) :
    s.pending ≠ [] ∧ block.samples.length ≤ s.retained ∧
      (∀ pos stop, PendingFrom pos s.pending stop → block.startSample = pos) ∧
      t = { s with
        pending := consume block.samples.length s.pending
        retained := s.retained - block.samples.length } := by
  unfold accept at h
  cases hp : s.pending with
  | nil =>
    rw [hp] at h
    cases h
  | cons front rest =>
    rw [hp] at h
    dsimp only at h
    split at h
    · cases h
    · next hok =>
      have hstart : block.startSample = front.start + front.used :=
        Decidable.not_not.mp fun hne => hok (.inl hne)
      have hlen : block.samples.length ≤ s.retained :=
        not_lt.mp fun hlt => hok (.inr (.inl hlt))
      refine ⟨cons_ne_nil _ _, hlen, fun pos stop hchain => hstart.trans hchain.1, ?_⟩
      exact (Option.some.inj h).symm

theorem accept_shows (source : Provenance) (hsource : source ≠ .owner) (h : Shows L s)
    (hacc : s.accept block = some t) :
    ∃ L', Shows L' { t with
      published := t.published ++ [⟨{ block with epoch := t.epoch }, source⟩] } := by
  obtain ⟨-, hret, hstart, rfl⟩ := accept_cases hacc
  have hpos := hstart _ _ h.chain
  have hlen : block.samples.length ≤ L.pending.length := h.retained ▸ hret
  have horig : source = .owner → block.samples = L.pending.take block.samples.length :=
    fun ho => absurd ho hsource
  obtain ⟨hchain, hheld⟩ := consume_spec h.chain (n := block.samples.length)
    (by rw [h.held]; exact hlen)
  refine ⟨L.publish source block.samples hlen horig, h.past, h.cur, h.epoch, h.next, ?_, ?_, ?_, ?_⟩
  · rw [hheld, h.held, Ledger.publish_pending]
  · rwa [add_assoc] at hchain
  · show s.retained - block.samples.length = _
    rw [Ledger.publish_pending, length_drop, h.retained]
  · show L.cells ++ _ = entryCells (s.published ++ [_])
    rw [entryCells_append, entryCells_singleton, h.cells, Entry.cells, h.cur, ← h.epoch]
    rw [hpos]
    rfl

variable {offered : Offered α}

theorem hold_shows (nowMs : ℕ) (h : Shows L s) (hstart : offered.start = s.next)
    (hne : offered.mic ≠ []) : ∃ L', Shows L' (s.hold offered nowMs) := by
  refine ⟨L.accept offered.mic, h.past, ?_, h.epoch, ?_, ?_, ?_, ?_, h.cells⟩
  · show ({ L.cur with accepted := L.cur.accepted ++ offered.mic } : Take α) = _
    rw [h.cur]
    rfl
  · show s.next + offered.mic.length = s.cur.start + (s.cur.accepted ++ offered.mic).length
    rw [h.next, length_append, add_assoc]
  · show heldSamples (s.pending ++ [⟨offered.start, offered.mic, 0, nowMs⟩]) = _
    rw [heldSamples_append, h.held, Ledger.accept_pending]
    simp
  · exact h.chain.snoc (p := ⟨offered.start, offered.mic, 0, nowMs⟩) hstart rfl hne
  · show s.retained + offered.mic.length = _
    rw [Ledger.accept_pending, length_append, h.retained]

/-- With nothing pending, the offered samples are accepted and published at once. -/
theorem publishOffered_shows (h : Shows L s) (hstart : offered.start = s.next)
    (hnone : s.pending = []) : ∃ L', Shows L' (s.publishOffered offered) := by
  have hnil : L.pending = [] := by rw [← h.held, hnone, heldSamples_nil]
  have hall : (L.accept offered.mic).pending = offered.mic := by
    rw [Ledger.accept_pending, hnil, nil_append]
  have hdone : L.done = s.cur.accepted.length := by
    have := L.pending_length
    rw [hnil, length_nil, add_zero, h.cur] at this
    exact this
  refine ⟨(L.accept offered.mic).publish .owner offered.mic (by rw [hall])
    (by intro _; rw [hall, take_length]), h.past, ?_, h.epoch, ?_, ?_, ?_, ?_, ?_⟩
  · show ({ L.cur with accepted := L.cur.accepted ++ offered.mic } : Take α) = _
    rw [h.cur]
    rfl
  · show s.next + offered.mic.length = s.cur.start + (s.cur.accepted ++ offered.mic).length
    rw [h.next, length_append, add_assoc]
  · show heldSamples s.pending = _
    rw [Ledger.publish_pending, hall, drop_length, hnone, heldSamples_nil]
  · show PendingFrom (s.cur.start + (L.done + offered.mic.length)) s.pending
      (s.next + offered.mic.length)
    rw [hnone, h.next, hdone]
    exact (add_assoc _ _ _).symm
  · show s.retained = _
    rw [Ledger.publish_pending, hall, drop_length, h.retained, hnil]
  · show L.cells ++ cellsFrom L.cur.epoch .owner (L.cur.start + L.done) offered.mic =
      entryCells (s.published ++ [_])
    rw [entryCells_append, entryCells_singleton, h.cells, Entry.cells, h.cur, ← h.epoch, hdone,
      ← h.next, ← hstart]
    rfl

/-! ## The fence -/

def commandTags : Command α → List (ℕ × ℕ)
  | .input job => [(job.fence, job.jobEpoch)]
  | .finish => []

def phaseTags : Phase α → List (ℕ × ℕ)
  | .received command => commandTags command
  | .publishing result | .offering result => [(result.fence, result.jobEpoch)]
  | _ => []

section
variable (s : System α β)

/-- The generations in flight, each with the epoch it was submitted for. -/
def inFlight : List (ℕ × ℕ) :=
  s.queue.flatMap commandTags ++ phaseTags s.phase ++
    s.results.map (fun r => (r.fence, r.jobEpoch)) ++ [(s.active, s.activeEpoch)]

/-- Only the current epoch is in flight under the current fence. -/
def Linked : Prop :=
  ∀ tag ∈ s.inFlight, tag.1 < s.fence ∨ tag.1 = s.fence ∧ tag.2 = s.epoch

/-- Nothing is in flight under the current fence. -/
def Fresh : Prop := ∀ tag ∈ s.inFlight, tag.1 < s.fence

/-- The fence ran out: nothing is held and nothing will be. -/
structure Exhausted : Prop where
  closed : s.closed = true
  commands : s.commands = false
  pending : s.pending = []

end

theorem Fresh.linked (h : Fresh s) : Linked s := fun tag ht => Or.inl (h tag ht)

variable {tag : ℕ × ℕ}

theorem Linked.le (h : Linked s) (ht : tag ∈ s.inFlight) : tag.1 ≤ s.fence := by
  rcases h tag ht with hlt | ⟨heq, -⟩
  · exact hlt.le
  · exact heq.le

/-! ## The invariant -/

section
variable (s : System α β)

/-- What holds wherever the owner and the thread are. -/
structure Core : Prop where
  ledger : ∃ L, Shows L s
  link : Exhausted s ∨ Linked s
  shut : s.commands = false → s.closed = true ∨ s.pending = []
  stamped : ∀ e ∈ s.published, ∀ f g j, e.source = .worker f g j → f = g ∧ j = e.output.epoch

/-- An offered block starts at the next sample, and a stream closed meanwhile holds nothing. -/
structure Offers (offered : Offered α) : Prop where
  start : offered.start = s.next
  live : s.closed = false ∨ s.pending = []

def AfterOk : After α → Prop
  | .submit offered _ _ => Offers s offered
  | .poll | .finish => True

/-- What a fallback needs of what comes after it. -/
def ResumeOk : Pc α → Prop
  | .idle _ | .cancelling => True
  | .polling _ (.submit offered _ _) => offered.start = s.next
  | .polling _ _ => True
  | .checking offered _ _ => offered.start = s.next ∧ offered.mic ≠ []
  | .resetting epoch _ => s.epoch < epoch
  | .falling _ _ _ | .sending _ _ _ | .sendingFinish => False

def PcOk : Pc α → Prop
  | .idle _ | .cancelling => True
  | .polling _ next => AfterOk s next
  | .falling _ _ next => ResumeOk s next
  | .checking offered _ _ => Offers s offered ∧ offered.mic ≠ []
  | .sending offered _ _ => Offers s offered ∧ offered.mic ≠ [] ∧ s.commands = true
  | .sendingFinish => s.closed = true
  | .resetting epoch _ => s.epoch < epoch ∧ s.pending = [] ∧ (Exhausted s ∨ Fresh s)

structure Inv : Prop where
  core : Core s
  pc : PcOk s s.pc

end

theorem Core.setPc (h : Core s) (pc : Pc α) : Core { s with pc } := by
  obtain ⟨L, hL⟩ := h.ledger
  refine ⟨⟨L, { hL with }⟩, ?_, h.shut, h.stamped⟩
  exact h.link.imp (fun he => ⟨he.closed, he.commands, he.pending⟩) id

theorem Core.ret (h : Core s) (r : Except Error Bool) : Inv (s.ret r) := ⟨h.setPc _, trivial⟩

/-- The thread changes only its own side, and puts nothing new in flight. -/
theorem Inv.thread (h : Inv s)
    (hframe : ∃ queue results inputAlive outputAlive running phase active activeEpoch adapter,
      t = { s with
        queue
        results
        inputAlive
        outputAlive
        running
        phase
        active
        activeEpoch
        adapter }) (hsub : t.inFlight ⊆ s.inFlight) : Inv t := by
  obtain ⟨L, hL⟩ := h.core.ledger
  have hlink := h.core.link
  have hpc := h.pc
  obtain ⟨queue, results, ia, oa, running, phase, active, ae, adapter, rfl⟩ := hframe
  refine ⟨⟨⟨L, { hL with }⟩, ?_, h.core.shut, h.core.stamped⟩, ?_⟩
  · exact hlink.imp (fun he => ⟨he.closed, he.commands, he.pending⟩)
      fun hl tag ht => hl tag (hsub ht)
  · show PcOk _ s.pc
    cases hs : s.pc with
    | idle | cancelling => exact trivial
    | polling left next =>
      rw [hs] at hpc
      cases next with
      | poll => exact trivial
      | finish => exact trivial
      | submit offered nowMs d =>
        have ho : Offers s offered := hpc
        exact ⟨ho.start, ho.live⟩
    | falling reason take next =>
      rw [hs] at hpc
      cases next with
      | polling left next => cases next <;> exact hpc
      | _ => exact hpc
    | checking | sending =>
      rw [hs] at hpc
      exact ⟨⟨hpc.1.start, hpc.1.live⟩, hpc.2⟩
    | sendingFinish =>
      rw [hs] at hpc
      exact hpc
    | resetting epoch start =>
      rw [hs] at hpc
      refine ⟨hpc.1, hpc.2.1, ?_⟩
      exact hpc.2.2.imp (fun he => ⟨he.closed, he.commands, he.pending⟩)
        fun hf tag ht => hf tag (hsub ht)

/-! ## Steps of the thread -/

theorem mem_inFlight :
    tag ∈ s.inFlight ↔ (∃ c ∈ s.queue, tag ∈ commandTags c) ∨ tag ∈ phaseTags s.phase ∨
      (∃ r ∈ s.results, (r.fence, r.jobEpoch) = tag) ∨ tag = (s.active, s.activeEpoch) := by
  simp only [inFlight, mem_append, mem_flatMap, mem_map, mem_singleton, or_assoc]

/-- The thread goes on to a phase that holds nothing new. -/
theorem Inv.goOn (h : Inv s) (phase : Phase α) (hsub : phaseTags phase ⊆ phaseTags s.phase)
    (ia oa running : Bool) : Inv { s with
      phase
      inputAlive := ia
      outputAlive := oa
      running } := by
  refine h.thread ⟨_, _, _, _, _, _, _, _, _, rfl⟩ fun tag ht => ?_
  rw [mem_inFlight] at ht ⊢
  exact ht.imp id (Or.imp (fun hp => hsub hp) id)

theorem deliver_inFlight (s : System α β) (blocks : List (Output α)) :
    ∃ phase, s.deliver blocks = { s with phase } ∧
      ∀ tag ∈ phaseTags phase, tag = (s.active, s.activeEpoch) := by
  unfold deliver
  split
  · exact ⟨_, rfl, nofun⟩
  · exact ⟨_, rfl, fun tag ht => mem_singleton.mp ht⟩

section Thread

variable [Sample α] (B : Backend α β)

/-- What is computed under the current fence carries the epoch of a job in flight. -/
theorem perform_inv (command : Command α) (h : Inv s) (hphase : s.phase = .received command) :
    Inv (s.perform B command) := by
  unfold perform
  cases command with
  | input job =>
    dsimp only
    split
    · exact h.goOn _ (nil_subset _) _ _ _
    rename_i hfence
    split
    · exact h.goOn _ (nil_subset _) _ _ _
    split
    · exact h.goOn _ (nil_subset _) _ _ _
    · next adapter blocks hrun =>
      obtain ⟨phase, hd, htags⟩ := deliver_inFlight
        { s with adapter, active := s.fence, activeEpoch := job.jobEpoch } blocks
      rw [hd]
      have hjob : (s.fence, job.jobEpoch) ∈ s.inFlight := by
        rw [mem_inFlight, hphase]
        refine .inr (.inl ?_)
        rw [← Decidable.not_not.mp hfence]
        exact mem_singleton_self _
      refine h.thread ⟨_, _, _, _, _, _, _, _, _, rfl⟩ fun tag ht => ?_
      rw [mem_inFlight] at ht
      rcases ht with hq | hp | hr | ha
      · exact mem_inFlight.mpr (.inl hq)
      · rw [htags tag hp]
        exact hjob
      · exact mem_inFlight.mpr (.inr (.inr (.inl hr)))
      · rw [ha]
        exact hjob
  | finish =>
    dsimp only
    split
    · obtain ⟨phase, hd, htags⟩ := deliver_inFlight
        { s with adapter := (s.adapter.finish B []).1 } (s.adapter.finish B []).2
      rw [hd]
      refine h.thread ⟨_, _, _, _, _, _, _, _, _, rfl⟩ fun tag ht => ?_
      rw [mem_inFlight] at ht ⊢
      rcases ht with hq | hp | hr | ha
      · exact .inl hq
      · exact .inr (.inr (.inr (htags tag hp)))
      · exact .inr (.inr (.inl hr))
      · exact .inr (.inr (.inr ha))
    · exact h.goOn _ (nil_subset _) _ _ _

theorem threadStep_inv (h : Inv s) (hstep : s.threadStep B = some t) : Inv t := by
  unfold threadStep at hstep
  cases hp : s.phase with
  | waiting =>
    rw [hp] at hstep
    cases hq : s.queue with
    | cons command rest =>
      rw [hq] at hstep
      cases hstep
      refine h.thread ⟨_, _, _, _, _, _, _, _, _, rfl⟩ fun tag ht => ?_
      rw [mem_inFlight] at ht ⊢
      rw [hq]
      rcases ht with ⟨c, hc, htag⟩ | hp' | hr | ha
      · exact .inl ⟨c, mem_cons_of_mem _ hc, htag⟩
      · exact .inl ⟨command, mem_cons_self, hp'⟩
      · exact .inr (.inr (.inl hr))
      · exact .inr (.inr (.inr ha))
    | nil =>
      rw [hq] at hstep
      dsimp only at hstep
      split at hstep
      · cases hstep
      · cases hstep
        have hleave := h.goOn .leaving (nil_subset _) s.inputAlive s.outputAlive s.running
        rwa [hq] at hleave
  | received command =>
    rw [hp] at hstep
    cases hstep
    exact perform_inv B command h hp
  | publishing result =>
    rw [hp] at hstep
    dsimp only at hstep
    split at hstep
    · cases hstep
      exact h.goOn .waiting (nil_subset _) _ _ _
    · cases hstep
      exact h.goOn (.offering result) (by rw [hp]; exact Subset.refl _) _ _ _
  | offering result =>
    rw [hp] at hstep
    dsimp only at hstep
    split at hstep
    · cases hstep
      exact h.goOn (.publishing result) (by rw [hp]; exact Subset.refl _) _ _ _
    · cases hstep
      refine h.thread ⟨_, _, _, _, _, _, _, _, _, rfl⟩ fun tag ht => ?_
      rw [mem_inFlight] at ht ⊢
      rw [hp]
      rcases ht with hq | hp' | ⟨r, hr, htag⟩ | ha
      · exact .inl hq
      · cases hp'
      · rcases mem_append.mp hr with hr | hr
        · exact .inr (.inr (.inl ⟨r, hr, htag⟩))
        · rw [mem_singleton.mp hr] at htag
          exact .inr (.inl (htag ▸ mem_singleton_self _))
      · exact .inr (.inr (.inr ha))
  | leaving =>
    rw [hp] at hstep
    cases hstep
    exact h.goOn .outputDropped (nil_subset _) _ _ _
  | outputDropped =>
    rw [hp] at hstep
    cases hstep
    refine h.thread ⟨_, _, _, _, _, _, _, _, _, rfl⟩ fun tag ht => ?_
    rw [mem_inFlight] at ht ⊢
    rcases ht with ⟨c, hc, -⟩ | hp' | hr | ha
    · cases hc
    · cases hp'
    · exact .inr (.inr (.inl hr))
    · exact .inr (.inr (.inr ha))
  | inputDropped =>
    rw [hp] at hstep
    cases hstep
    exact h.goOn .gone (nil_subset _) _ _ _
  | gone =>
    rw [hp] at hstep
    cases hstep

omit [Sample α] in
theorem die_eq (hstep : s.die = some t) : t = { s with phase := .leaving } := by
  unfold die at hstep
  split at hstep
  · cases hstep
  · cases hstep
  · cases hstep
  · cases hstep
  · exact (Option.some.inj hstep).symm

omit [Sample α] in
theorem die_inv (h : Inv s) (hstep : s.die = some t) : Inv t := by
  rw [die_eq hstep]
  exact h.goOn .leaving (nil_subset _) _ _ _

end Thread

/-! ## Steps of the owner -/

/-- The owner closes the stream, or moves its clock. -/
theorem Core.update (h : Core s) (pc : Pc α) (now : ℕ) {closed : Bool}
    (hclosed : s.closed = true → closed = true) :
    Core { s with now, closed, pc } := by
  obtain ⟨L, hL⟩ := h.ledger
  refine ⟨⟨L, { hL with }⟩, ?_, fun hc => (h.shut hc).imp hclosed id, h.stamped⟩
  exact h.link.imp (fun he => ⟨hclosed he.closed, he.commands, he.pending⟩) id

theorem afterPoll_inv (h : Core s) (next : After α) (hnext : AfterOk s next) :
    Inv (s.afterPoll next) := by
  cases next with
  | poll => exact h.ret _
  | submit offered nowMs d =>
    have ho : Offers s offered := hnext
    unfold afterPoll
    dsimp only
    split
    · exact h.ret _
    · next hne =>
      split
      · split
        · exact h.ret _
        · exact ⟨h.setPc _, ho.start, hne⟩
      · exact ⟨h.setPc _, ⟨ho.start, ho.live⟩, hne⟩
  | finish =>
    unfold afterPoll
    dsimp only
    split
    · exact h.ret _
    · split
      · exact ⟨h.update _ s.now fun _ => rfl, rfl⟩
      · exact ⟨h.update _ s.now fun _ => rfl, trivial⟩

variable {next : After α}

theorem AfterOk.resume (h : AfterOk s next) (hn : t.next = s.next) (left : ℕ) :
    ResumeOk t (.polling left next) := by
  cases next with
  | poll | finish => exact trivial
  | submit offered nowMs d =>
    have ho : Offers s offered := h
    exact ho.start.trans hn.symm

/-- The stream is open when a block is offered, and a `poll` starts with the deadline. -/
theorem startPoll_inv (h : Core s) (nowMs : ℕ) (next : After α) (hnext : AfterOk s next) :
    Inv (s.startPoll nowMs next) := by
  have hpoll : Inv { s with
      now := nowMs
      pc := .polling (s.config.queuedBlocks + 1) next } := by
    refine ⟨h.update _ nowMs id, ?_⟩
    cases next with
    | poll | finish => exact trivial
    | submit offered n d =>
      have ho : Offers s offered := hnext
      exact ⟨ho.start, ho.live⟩
  unfold startPoll
  split
  · exact h.ret _
  · dsimp only
    split
    · exact hpoll
    · split
      · exact ⟨h.update _ nowMs id, hnext.resume rfl _⟩
      · exact hpoll

theorem enter_inv [Sample α] (h : Core s) (call : Call α) : Inv (s.enter call) := by
  have hoffers : ∀ offered, s.admissible offered = true → Offers s offered := by
    intro offered hadm
    simp only [admissible, Bool.and_eq_true, Bool.not_eq_true', beq_iff_eq] at hadm
    exact ⟨hadm.1.1.1.1.2, .inl hadm.1.1.1.1.1.1⟩
  unfold enter
  cases call with
  | submit offered nowMs | trySubmit offered nowMs =>
    dsimp only
    split
    · next hadm =>
      exact startPoll_inv h nowMs _ (hoffers offered hadm)
    · exact h.ret _
  | poll nowMs => exact startPoll_inv h nowMs .poll trivial
  | reset epoch start =>
    dsimp only
    split
    · exact h.ret _
    · next hok =>
      exact ⟨h.setPc _, not_le.mp fun hle => hok (.inr hle)⟩
  | finish nowMs => exact startPoll_inv h nowMs .finish trivial
  | cancel => exact ⟨h.setPc _, trivial⟩

/-- After a fallback nothing is held, and what is in flight is fenced. -/
theorem falling_inv (h : Core s) (reason : BypassReason) (take : Bool) (next : Pc α)
    (hnext : ResumeOk s next) :
    Inv { s.fallback reason with
      commands := (s.fallback reason).commands && !take
      pc := next } := by
  obtain ⟨L, hL⟩ := h.ledger
  obtain ⟨L', hL'⟩ := fallback_shows reason hL
  have hstamped : ∀ e ∈ (s.fallback reason).published, ∀ f g j,
      e.source = .worker f g j → f = g ∧ j = e.output.epoch := by
    intro e he f g j hsource
    obtain ⟨_, _, _, _, hfb, hpub, -⟩ := fallback_cases s reason
    rw [hfb, hpub] at he
    rcases mem_append.mp he with he | he
    · exact h.stamped e he f g j hsource
    · obtain ⟨p, -, rfl⟩ := mem_map.mp he
      cases hsource
  obtain ⟨fence, commands, closed, published, hfb, -, hfence⟩ := fallback_cases s reason
  rw [hfb] at hL' hstamped ⊢
  have hfresh :
      Exhausted { s with commands := commands && !take, closed := closed, pending := [] } ∨
      Fresh { s with fence } := by
    rcases hfence with ⟨hlt, hc, hcl⟩ | ⟨hc, hcl⟩
    · rcases h.link with he | hl
      · refine .inl ⟨hcl.trans he.closed, ?_, rfl⟩
        show (commands && !take) = false
        rw [hc, he.commands, Bool.false_and]
      · exact .inr fun tag ht => (hl.le ht).trans_lt hlt
    · refine .inl ⟨hcl, ?_, rfl⟩
      show (commands && !take) = false
      rw [hc, Bool.false_and]
  refine ⟨⟨⟨L', { hL' with }⟩, hfresh.imp (fun he => { he with }) Fresh.linked, fun _ => .inr rfl,
    hstamped⟩, ?_⟩
  cases next with
  | idle | cancelling => exact trivial
  | polling left next =>
    cases next with
    | poll => exact trivial
    | finish => exact trivial
    | submit offered nowMs d => exact ⟨hnext, .inr rfl⟩
  | checking offered nowMs d => exact ⟨⟨hnext.1, .inr rfl⟩, hnext.2⟩
  | resetting epoch start => exact ⟨hnext, rfl, hfresh.imp (fun he => { he with }) id⟩
  | falling | sending | sendingFinish => exact hnext.elim

/-- Taking the blocks of a result changes what is held and published, and nothing else. -/
theorem acceptAll_frame (result : ResultBlock α) (blocks : List (Output α)) (s : System α β) :
    ∃ pending retained published,
      (acceptAll result blocks s).1 = { s with pending, retained, published } ∧
        (s.pending = [] → pending = []) := by
  induction blocks generalizing s with
  | nil => exact ⟨_, _, _, rfl, id⟩
  | cons block blocks ih =>
    unfold acceptAll
    cases hacc : s.accept block with
    | none => exact ⟨_, _, _, rfl, id⟩
    | some t =>
      obtain ⟨hne, -, -, rfl⟩ := accept_cases hacc
      obtain ⟨p, r, q, heq, -⟩ := ih { s with
        pending := consume block.samples.length s.pending
        retained := s.retained - block.samples.length
        published := s.published ++ [⟨{ block with epoch := s.epoch },
          .worker result.fence s.fence result.jobEpoch⟩] }
      exact ⟨p, r, q, heq, fun hnil => absurd hnil hne⟩

/-- Taking the blocks of a result that was computed under the current fence. -/
theorem acceptAll_core (h : Core s) (result : ResultBlock α) (blocks : List (Output α))
    (hfence : result.fence = s.fence) (hjob : s.pending = [] ∨ result.jobEpoch = s.epoch) :
    Core (acceptAll result blocks s).1 := by
  induction blocks generalizing s with
  | nil => exact h
  | cons block blocks ih =>
    unfold acceptAll
    cases hacc : s.accept block with
    | none => exact h
    | some t =>
      obtain ⟨L, hL⟩ := h.ledger
      have hshow := accept_shows (.worker result.fence t.fence result.jobEpoch) nofun hL hacc
      obtain ⟨hne, -, -, rfl⟩ := accept_cases hacc
      have hepoch : result.jobEpoch = s.epoch := hjob.resolve_left hne
      refine ih ⟨hshow, ?_, ?_, ?_⟩ hfence (.inr hepoch)
      · exact h.link.imp (fun he => absurd he.pending hne) id
      · exact fun hc => .inl ((h.shut hc).resolve_right hne)
      · intro e he f g j hsource
        rcases mem_append.mp he with he | he
        · exact h.stamped e he f g j hsource
        · rw [mem_singleton.mp he] at hsource ⊢
          cases hsource
          exact ⟨hfence, hepoch⟩

theorem AfterOk.shrink (h : AfterOk s next) {pending : List (Pending α)}
    (hp : s.pending = [] → pending = []) (retained : ℕ) (published : List (Entry α))
    (results : List (ResultBlock α)) (pc : Pc α) :
    AfterOk { s with
      pending
      retained
      published
      results
      pc } next := by
  cases next with
  | poll | finish => exact trivial
  | submit offered nowMs d =>
    have ho : Offers s offered := h
    exact ⟨ho.start, ho.live.imp id hp⟩

theorem pollOnce_inv (h : Core s) (left : ℕ) (next : After α) (hnext : AfterOk s next) :
    Inv (s.pollOnce left next) := by
  unfold pollOnce
  split
  · next result rest hr =>
    have hpop : Core ({ s with results := rest, pc := .polling left next } : System α β) := by
      obtain ⟨L, hL⟩ := h.ledger
      refine ⟨⟨L, { hL with }⟩, ?_, h.shut, h.stamped⟩
      refine h.link.imp (fun he => ⟨he.closed, he.commands, he.pending⟩) fun hl tag ht => ?_
      refine hl tag ?_
      rw [mem_inFlight] at ht ⊢
      rw [hr]
      refine ht.imp id (Or.imp id (Or.imp ?_ id))
      exact fun ⟨r, hmem, htag⟩ => ⟨r, mem_cons_of_mem _ hmem, htag⟩
    dsimp only
    split
    · exact ⟨hpop, hnext.shrink id s.retained s.published rest _⟩
    rename_i hne
    have hfence : result.fence = s.fence := Decidable.not_not.mp hne
    have hjob : s.pending = [] ∨ result.jobEpoch = s.epoch := by
      rcases h.link with he | hl
      · exact .inl he.pending
      · have htag : (result.fence, result.jobEpoch) ∈ s.inFlight := by
          rw [mem_inFlight, hr]
          exact .inr (.inr (.inl ⟨result, mem_cons_self, rfl⟩))
        rcases hl _ htag with hlt | ⟨-, hj⟩
        · exact absurd hfence hlt.ne
        · exact .inr hj
    have hcore := acceptAll_core hpop result result.blocks hfence hjob
    obtain ⟨p, r, q, heq, hp⟩ := acceptAll_frame result result.blocks
      { s with results := rest, pc := .polling left next }
    rw [heq] at hcore ⊢
    split
    · exact ⟨hcore, hnext.shrink hp r q rest _⟩
    · exact ⟨hcore.setPc _, hnext.resume rfl left⟩
  · split
    · exact afterPoll_inv h next hnext
    · exact ⟨h.setPc _, hnext.resume rfl 0⟩

/-- A command under the current fence and epoch joins the queue. -/
theorem Linked.push (h : Linked s) {c : Command α}
    (hc : ∀ tag ∈ commandTags c, tag = (s.fence, s.epoch)) :
    Linked { s with queue := s.queue ++ [c] } := by
  intro tag ht
  rcases mem_inFlight.mp ht with ⟨d, hd, htag⟩ | hrest
  · rcases mem_append.mp hd with hd | hd
    · exact h tag (mem_inFlight.mpr (.inl ⟨d, hd, htag⟩))
    · rw [mem_singleton.mp hd] at htag
      rw [hc tag htag]
      exact .inr ⟨rfl, rfl⟩
  · exact h tag (mem_inFlight.mpr (.inr hrest))

/-- The block is sent and held, or refused and held, or left to the caller. -/
theorem send_inv (h : Core s) (nowMs : ℕ) (deferWhenFull : Bool) (ho : Offers s offered)
    (hne : offered.mic ≠ []) (hcommands : s.commands = true) :
    Inv (s.send offered nowMs deferWhenFull) := by
  obtain ⟨L, hL⟩ := h.ledger
  obtain ⟨L', hL'⟩ := hold_shows nowMs hL ho.start hne
  have hlinked : Linked s := h.link.resolve_left fun he =>
    absurd (hcommands.symm.trans he.commands) Bool.noConfusion
  have hheld : ∀ (queue : List (Command α)) (pc : Pc α), Linked { s with queue := queue } →
      Core { s.hold offered nowMs with queue, pc } := fun queue pc hqueue =>
    ⟨⟨L', { hL' with }⟩, .inr hqueue,
      fun hc => absurd (hcommands.symm.trans hc) Bool.noConfusion, h.stamped⟩
  unfold send
  split
  · exact ⟨hheld s.queue _ hlinked, trivial⟩
  · split
    · split
      · exact h.ret _
      · exact ⟨hheld s.queue _ hlinked, trivial⟩
    · exact ⟨hheld _ _ (hlinked.push fun tag ht => mem_singleton.mp ht), trivial⟩

theorem publishOffered_inv (h : Core s) (hstart : offered.start = s.next) (hnone : s.pending = []) :
    Inv (s.publishOffered offered) := by
  obtain ⟨L, hL⟩ := h.ledger
  refine ⟨⟨publishOffered_shows hL hstart hnone, ?_, fun _ => .inr hnone, ?_⟩, trivial⟩
  · exact h.link.imp (fun he => ⟨he.closed, he.commands, he.pending⟩) id
  · intro e he f g j hsource
    rcases mem_append.mp he with he | he
    · exact h.stamped e he f g j hsource
    · rw [mem_singleton.mp he] at hsource
      cases hsource

variable {epoch : ℕ}

theorem resetting_inv (h : Core s) (start : ℕ) (hlater : s.epoch < epoch) (hnone : s.pending = [])
    (hfresh : Exhausted s ∨ Fresh s) :
    Inv { s with
      epoch
      next := start
      past := s.past ++ [s.cur]
      cur := ⟨epoch, start, []⟩
      pc := .idle (some (.ok true)) } := by
  obtain ⟨L, hL⟩ := h.ledger
  have hnil : L.pending = [] := by rw [← hL.held, hnone, heldSamples_nil]
  have hturn : L.cur.epoch < epoch := by rwa [hL.cur, ← hL.epoch]
  refine ⟨⟨⟨L.turn epoch start hturn hnil, ?_, rfl, rfl, rfl, ?_, ?_, ?_, hL.cells⟩, ?_,
    fun _ => .inr hnone, h.stamped⟩, trivial⟩
  · show L.past ++ [L.cur] = s.past ++ [s.cur]
    rw [hL.past, hL.cur]
  · show heldSamples s.pending = []
    rw [hnone, heldSamples_nil]
  · show PendingFrom (start + 0) s.pending start
    rw [hnone]
    rfl
  · show s.retained = 0
    rw [hL.retained, hnil, length_nil]
  · exact hfresh.imp (fun he => ⟨he.closed, he.commands, he.pending⟩) fun hf => Fresh.linked hf

/-- The step is not one at which the owner finds the thread stopped while it still holds
    samples. -/
def quietStop (s : System α β) : Event α → Bool
  | .owner =>
    match s.pc with
    | .checking _ _ _ => !s.commands || s.running || s.pending.isEmpty
    | _ => true
  | _ => true

theorem ownerStep_inv (h : Inv s) (hquiet : s.quietStop .owner = true)
    (hstep : s.ownerStep = some t) : Inv t := by
  have hpc := h.pc
  unfold quietStop at hquiet
  unfold ownerStep at hstep
  split at hstep
  · cases hstep
  · next next hs =>
    rw [hs] at hpc
    cases hstep
    exact afterPoll_inv h.core next hpc
  · next left next hs =>
    rw [hs] at hpc
    cases hstep
    exact pollOnce_inv h.core left next hpc
  · next reason take next hs =>
    rw [hs] at hpc
    cases hstep
    exact falling_inv h.core reason take next hpc
  · next offered nowMs d hs =>
    rw [hs] at hpc hquiet
    obtain ⟨ho, hne⟩ := hpc
    split at hstep
    · next hdown =>
      cases hstep
      refine publishOffered_inv h.core ho.start ?_
      cases hc : s.commands with
      | false =>
        -- without a sender the stream is closed or holds nothing, and it was open
        rcases h.core.shut hc with hcl | hp
        · exact ho.live.resolve_left fun hopen =>
            absurd (hopen.symm.trans hcl) Bool.false_ne_true
        · exact hp
      | true =>
        have hstop : s.running = false := hdown.resolve_left fun hf =>
          absurd (hf.symm.trans hc) Bool.false_ne_true
        simpa [hc, hstop] using hquiet
    · next hup =>
      cases hstep
      have hc : s.commands = true := by
        cases hc : s.commands with
        | false => exact absurd (.inl hc) hup
        | true => rfl
      exact ⟨h.core.setPc _, ⟨ho.start, ho.live⟩, hne, hc⟩
  · next offered nowMs d hs =>
    rw [hs] at hpc
    obtain ⟨ho, hne, hc⟩ := hpc
    cases hstep
    exact send_inv h.core nowMs d ho hne hc
  · next hs =>
    rw [hs] at hpc
    have hclosed : s.closed = true := hpc
    have hdrop : ∀ (queue : List (Command α)) (pc : Pc α), (Linked s → Linked { s with queue }) →
        Core { s with commands := false, queue, pc } := by
      intro queue pc hqueue
      obtain ⟨L, hL⟩ := h.core.ledger
      refine ⟨⟨L, { hL with }⟩, ?_, fun _ => .inl hclosed, h.core.stamped⟩
      exact h.core.link.imp (fun he => ⟨he.closed, rfl, he.pending⟩) hqueue
    split at hstep
    · cases hstep
      exact ⟨hdrop s.queue _ id, trivial⟩
    · cases hstep
      exact ⟨hdrop _ _ fun hl => hl.push nofun, trivial⟩
  · next epoch start hs =>
    rw [hs] at hpc
    cases hstep
    exact resetting_inv h.core start hpc.1 hpc.2.1 hpc.2.2
  · cases hstep
    obtain ⟨L, hL⟩ := h.core.ledger
    refine ⟨⟨⟨L, { hL with }⟩, ?_, fun _ => .inl rfl, h.core.stamped⟩, trivial⟩
    exact h.core.link.imp (fun he => ⟨rfl, rfl, he.pending⟩) id

theorem step_inv [Sample α] (B : Backend α β) (event : Event α) (h : Inv s)
    (hquiet : s.quietStop event = true) (hstep : s.step B event = some t) : Inv t := by
  cases event with
  | call call =>
    unfold step at hstep
    dsimp only at hstep
    split at hstep
    · cases hstep
      exact enter_inv h.core call
    · cases hstep
  | owner => exact ownerStep_inv h hquiet hstep
  | thread => exact threadStep_inv B h hstep
  | die => exact die_inv h hstep

/-! ## The contract -/

/-- What the owner guarantees at any point of a run. -/
structure Correct (s : System α β) : Prop where
  /-- An epoch that was left is published from its first accepted sample to its last, each
      once and in order; -/
  tiled_past : ∀ t ∈ s.past, positions t.epoch s.cells = List.range' t.start t.accepted.length
  /-- the current one up to some point, and the owner holds the rest. -/
  tiled_cur : ∃ n ≤ s.cur.accepted.length,
    positions s.cur.epoch s.cells = List.range' s.cur.start n ∧
      heldSamples s.pending = s.cur.accepted.drop n
  epochs : (s.takes.map Take.epoch).Pairwise (· < ·)
  ordered : (s.cells.map Cell.epoch).Pairwise (· ≤ ·)
  known : ∀ c ∈ s.cells, ∃ t ∈ s.takes, c.epoch = t.epoch
  /-- What the owner published from its own copy is what was accepted. -/
  original : ∀ t ∈ s.takes, t.Original (fun source => source = .owner) s.cells
  /-- A result was taken under the fence it was computed for, in the epoch it was
      submitted in. -/
  unfenced : ∀ e ∈ s.published, ∀ fence fenceNow jobEpoch,
    e.source = .worker fence fenceNow jobEpoch → fence = fenceNow ∧ jobEpoch = e.output.epoch

theorem Inv.correct (h : Inv s) : Correct s := by
  obtain ⟨L, hL⟩ := h.core.ledger
  have htakes : L.past ++ [L.cur] = s.takes := by rw [hL.past, hL.cur, takes]
  refine
    { tiled_past := ?_
      tiled_cur := ⟨L.done, hL.cur ▸ L.done_le, ?_, ?_⟩
      epochs := htakes ▸ L.epochs
      ordered := hL.cells ▸ L.ordered
      known := ?_
      original := ?_
      unfenced := h.core.stamped }
  · intro t ht
    rw [← hL.cells]
    exact L.tiled_past t (hL.past ▸ ht)
  · rw [← hL.cells, ← hL.cur]
    exact L.tiled_cur
  · rw [hL.held, ← hL.cur]
    rfl
  · rw [← hL.cells, ← htakes]
    exact L.known
  · rw [← hL.cells, ← htakes]
    exact L.original

theorem new_inv [Sample α] {B : Backend α β} {backend : β} {config : Config} {start : ℕ}
    (h : new B backend config epoch start = .ok s) : Inv s := by
  unfold new at h
  split at h
  · cases h
  split at h
  · cases h
  · cases h
    refine ⟨⟨⟨Ledger.empty epoch start, rfl, rfl, rfl, rfl, rfl, rfl, rfl, rfl⟩,
      .inr fun tag ht => ?_, nofun, nofun⟩, trivial⟩
    rcases mem_inFlight.mp ht with ⟨c, hc, -⟩ | hp | ⟨r, hr, -⟩ | ha
    · cases hc
    · cases hp
    · cases hr
    · rw [ha]
      exact .inr ⟨rfl, rfl⟩

/-! ## Calls that leave nothing held -/

/-- The thread has left its loop and dropped its side of the result channel. -/
def Gone (s : System α β) : Prop :=
  s.outputAlive = false ∧ (s.phase = .outputDropped ∨ s.phase = .inputDropped ∨ s.phase = .gone)

/-- The owner publishes what it holds in the call: a cancel or a reset does, and a `poll` at the
    deadline of the oldest block, or with the thread gone and a pass of the loop left to see it. -/
def Releases (s : System α β) : Call α → Prop
  | .submit _ _ | .trySubmit _ _ => False
  | .poll nowMs | .finish nowMs =>
    s.now ≤ nowMs ∧
      ((∃ front ∈ s.pending.head?, s.config.deadlineMs ≤ nowMs - front.acceptedMs) ∨
        s.Gone ∧ s.results.length ≤ s.config.queuedBlocks)
  | .reset epoch _ => s.closed = false ∧ s.epoch < epoch
  | .cancel => True

/-- Every sample accepted in any epoch is published, once and in order. -/
structure AllOut (s : System α β) : Prop where
  held : s.pending = []
  tiled : ∀ t ∈ s.takes, positions t.epoch s.cells = List.range' t.start t.accepted.length

theorem Correct.allOut (h : Correct s) (hnone : s.pending = []) : AllOut s := by
  refine ⟨hnone, fun t ht => ?_⟩
  rcases mem_append.mp ht with ht | ht
  · exact h.tiled_past t ht
  · rw [mem_singleton.mp ht]
    obtain ⟨n, hn, hpos, hheld⟩ := h.tiled_cur
    rw [hnone, heldSamples_nil] at hheld
    rwa [le_antisymm hn (drop_eq_nil_iff.mp hheld.symm)] at hpos

/-- No block is accepted after the `poll`. -/
def offersNone : After α → Bool
  | .submit _ _ _ => false
  | .poll | .finish => true

/-- The owner is not on its way to accept a block. -/
def acceptsNone : Pc α → Bool
  | .checking _ _ _ | .sending _ _ _ => false
  | .polling _ next => offersNone next
  | .falling _ _ next => acceptsNone next
  | .idle _ | .sendingFinish | .resetting _ _ | .cancelling => true

/-- Nothing is held any more, or the owner is about to publish it, or its `poll` will find the
    result channel dropped. -/
inductive Emptying (s : System α β) : Prop
  | empty : s.pending = [] → acceptsNone s.pc = true → Emptying s
  | falling (reason : BypassReason) (take : Bool) (next : Pc α) :
      s.pc = .falling reason take next → acceptsNone next = true → Emptying s
  | polling (left : ℕ) (next : After α) : s.pc = .polling left next →
      acceptsNone s.pc = true → s.Gone → s.results.length < left → Emptying s

theorem Emptying.acceptsNone (h : Emptying s) : acceptsNone s.pc = true := by
  cases h with
  | empty _ hn => exact hn
  | falling _ _ _ hpc hn =>
    rw [hpc]
    exact hn
  | polling _ _ _ hn => exact hn

/-- Where the owner neither falls back nor polls, nothing is held. -/
theorem Emptying.held (h : Emptying s) {pc : Pc α} (hpc : s.pc = pc)
    (hfalling : ∀ reason take next, pc ≠ .falling reason take next)
    (hpolling : ∀ left next, pc ≠ .polling left next) : s.pending = [] := by
  cases h with
  | empty hnone => exact hnone
  | falling reason take next h => exact (hfalling reason take next (hpc.symm.trans h)).elim
  | polling left next h => exact (hpolling left next (hpc.symm.trans h)).elim

/-- How many steps of its own the owner is from returning. -/
def stepsLeft : Pc α → ℕ
  | .idle _ | .checking _ _ _ | .sending _ _ _ => 0
  | .cancelling | .resetting _ _ => 1
  | .sendingFinish => 2
  | .polling left _ => 3 + 2 * left
  | .falling _ _ next => stepsLeft next + 1

/-- From `s` the owner came to `t`, where it empties what it holds within `n` more steps and has
    forgotten no accepted sample. -/
structure Nears (s : System α β) (n : ℕ) (t : System α β) : Prop where
  emptying : Emptying t
  steps : stepsLeft t.pc ≤ n
  takes : s.takes ⊆ t.takes

theorem startPoll_nears (nowMs : ℕ) {next : After α} (hnext : offersNone next = true)
    (hnow : s.now ≤ nowMs)
    (h : (∃ front ∈ s.pending.head?, s.config.deadlineMs ≤ nowMs - front.acceptedMs) ∨
      s.Gone ∧ s.results.length ≤ s.config.queuedBlocks) :
    Nears s (2 * s.config.queuedBlocks + 6) (s.startPoll nowMs next) := by
  have hsteps : 3 + 2 * (s.config.queuedBlocks + 1) + 1 ≤ 2 * s.config.queuedBlocks + 6 := by omega
  unfold startPoll
  rw [if_neg (not_lt.mpr hnow)]
  dsimp only
  cases hhead : s.pending.head? with
  | none =>
    exact ⟨.empty (head?_eq_none_iff.mp hhead) hnext, Nat.le_of_succ_le hsteps, Subset.refl _⟩
  | some front =>
    dsimp only
    split
    · exact ⟨.falling _ _ _ rfl hnext, hsteps, Subset.refl _⟩
    · next hearly =>
      refine ⟨?_, Nat.le_of_succ_le hsteps, Subset.refl _⟩
      rcases h with ⟨p, hp, hlate⟩ | ⟨hdead, hroom⟩
      · rw [hhead] at hp
        cases hp
        exact absurd hlate hearly
      · exact .polling _ _ rfl hnext hdead (Nat.lt_succ_of_le hroom)

theorem enter_nears [Sample α] {call : Call α} (h : s.Releases call) :
    Nears s (2 * s.config.queuedBlocks + 6) (s.enter call) := by
  cases call with
  | submit | trySubmit => exact h.elim
  | poll nowMs => exact startPoll_nears nowMs rfl h.1 h.2
  | finish nowMs => exact startPoll_nears nowMs rfl h.1 h.2
  | cancel =>
    exact ⟨.falling _ _ _ rfl rfl, Nat.le_add_left_of_le (by decide : 2 ≤ 6), Subset.refl _⟩
  | reset epoch start =>
    obtain ⟨hopen, hlater⟩ := h
    show Nears s _ (if s.closed = true ∨ epoch ≤ s.epoch then _ else _)
    rw [if_neg (by rw [hopen]; simpa using hlater)]
    exact ⟨.falling _ _ _ rfl rfl, Nat.le_add_left_of_le (by decide : 2 ≤ 6), Subset.refl _⟩

theorem afterPoll_nears {next : After α} (hnone : s.pending = []) (hnext : offersNone next = true) :
    Nears s 2 (s.afterPoll next) := by
  cases next with
  | submit => cases hnext
  | poll => exact ⟨.empty hnone rfl, Nat.zero_le _, Subset.refl _⟩
  | finish =>
    unfold afterPoll
    dsimp only
    split
    · exact ⟨.empty hnone rfl, Nat.zero_le _, Subset.refl _⟩
    · split
      · exact ⟨.empty hnone rfl, le_rfl, Subset.refl _⟩
      · exact ⟨.empty hnone rfl, Nat.zero_le _, Subset.refl _⟩

/-- A pass of the loop takes a result, of which nothing fits if nothing is held, or it finds the
    channel empty: dropped, it is the end of the loop. -/
theorem pollOnce_nears {left : ℕ} {next : After α} (hpc : s.pc = .polling (left + 1) next)
    (h : Emptying s) : Nears s (4 + 2 * left) (s.pollOnce left next) := by
  have hnext : offersNone next = true := by
    have hn := h.acceptsNone
    rwa [hpc] at hn
  have hsteps : 3 + 2 * left ≤ 4 + 2 * left := Nat.add_le_add_right (by decide) _
  have hfall : 3 + 2 * left + 1 ≤ 4 + 2 * left := by omega
  unfold pollOnce
  split
  · next result rest hresults =>
    have hpop : Emptying { s with results := rest, pc := .polling left next } := by
      cases h with
      | empty hnone => exact .empty hnone hnext
      | falling reason take _ hfall => cases hpc.symm.trans hfall
      | polling _ _ hpoll _ hdead hroom =>
        cases hpc.symm.trans hpoll
        rw [hresults, length_cons] at hroom
        exact .polling left next rfl hnext hdead (Nat.lt_of_succ_lt_succ hroom)
    dsimp only
    split
    · exact ⟨hpop, hsteps, Subset.refl _⟩
    obtain ⟨p, r, q, heq, hp⟩ := acceptAll_frame result result.blocks
      { s with results := rest, pc := .polling left next }
    rw [heq]
    split
    · refine ⟨?_, hsteps, Subset.refl _⟩
      cases hpop with
      | empty hnone => exact .empty (hp hnone) hnext
      | falling reason take _ hfall => cases hfall
      | polling _ _ hpoll hn hdead hroom => exact .polling _ _ hpoll hn hdead hroom
    · exact ⟨.falling _ _ _ rfl hnext, hfall, Subset.refl _⟩
  · next hresults =>
    split
    · next halive =>
      have hnone : s.pending = [] := by
        cases h with
        | empty hnone => exact hnone
        | falling reason take _ hfall => cases hpc.symm.trans hfall
        | polling _ _ _ _ hdead => cases halive.symm.trans hdead.1
      have hafter := afterPoll_nears hnone hnext
      exact { hafter with steps := le_trans hafter.steps (by omega) }
    · exact ⟨.falling _ _ _ rfl hnext, by simp only [stepsLeft]; omega, Subset.refl _⟩

theorem ownerStep_nears (h : Emptying s) (hstep : s.ownerStep = some t) :
    Nears s (stepsLeft s.pc - 1) t := by
  unfold ownerStep at hstep
  split at hstep
  · cases hstep
  · next next hpc =>
    cases hstep
    have hnone : s.pending = [] := by
      cases h with
      | empty hp => exact hp
      | falling _ _ _ hfall => cases hpc.symm.trans hfall
      | polling _ _ hpoll _ _ hroom =>
        cases hpc.symm.trans hpoll
        cases hroom
    have hn := h.acceptsNone
    rw [hpc] at hn ⊢
    exact afterPoll_nears hnone hn
  · next left next hpc =>
    cases hstep
    have hpoll := pollOnce_nears hpc h
    rw [hpc]
    exact { hpoll with steps := le_trans hpoll.steps (by simp only [stepsLeft]; omega) }
  · next reason take next hpc =>
    cases hstep
    have hn := h.acceptsNone
    obtain ⟨fence, commands, closed, published, hfb, -, -⟩ := fallback_cases s reason
    rw [hpc] at hn ⊢
    rw [hfb]
    exact ⟨.empty rfl hn, le_rfl, Subset.refl _⟩
  · next hpc =>
    have hn := h.acceptsNone
    rw [hpc] at hn
    cases hn
  · next hpc =>
    have hn := h.acceptsNone
    rw [hpc] at hn
    cases hn
  · next hpc =>
    rw [hpc]
    split at hstep
    · cases hstep
      exact ⟨.falling _ _ _ rfl rfl, le_rfl, Subset.refl _⟩
    · cases hstep
      exact ⟨.empty (h.held hpc nofun nofun) rfl, Nat.zero_le _, Subset.refl _⟩
  · next hpc =>
    cases hstep
    exact ⟨.empty (h.held hpc nofun nofun) rfl, Nat.zero_le _, subset_append_left _ _⟩
  · next hpc =>
    cases hstep
    exact ⟨.empty (h.held hpc nofun nofun) rfl, Nat.zero_le _, Subset.refl _⟩

theorem stepsLeft_pos (h : Emptying s) (hstep : s.ownerStep = some t) : 0 < stepsLeft s.pc := by
  have hn := h.acceptsNone
  cases hpc : s.pc with
  | idle r =>
    unfold ownerStep at hstep
    rw [hpc] at hstep
    cases hstep
  | checking | sending =>
    rw [hpc] at hn
    cases hn
  | polling left next => exact Nat.add_pos_left (by decide) _
  | falling reason take next => exact Nat.succ_pos _
  | sendingFinish | resetting | cancelling => exact Nat.succ_pos _

section Thread

variable [Sample α] (B : Backend α β)

theorem perform_frame (s : System α β) (command : Command α) :
    ∃ phase active activeEpoch adapter,
      s.perform B command = { s with phase, active, activeEpoch, adapter } := by
  unfold perform
  cases command with
  | input job =>
    dsimp only
    split
    · exact ⟨_, _, _, _, rfl⟩
    split
    · exact ⟨_, _, _, _, rfl⟩
    split
    · exact ⟨_, _, _, _, rfl⟩
    · next adapter blocks _ =>
      obtain ⟨phase, hd, -⟩ := deliver_inFlight
        { s with adapter, active := s.fence, activeEpoch := job.jobEpoch } blocks
      exact ⟨phase, _, _, _, hd⟩
  | finish =>
    dsimp only
    split
    · obtain ⟨phase, hd, -⟩ := deliver_inFlight
        { s with adapter := (s.adapter.finish B []).1 } (s.adapter.finish B []).2
      exact ⟨phase, _, _, _, hd⟩
    · exact ⟨_, _, _, _, rfl⟩

/-- The thread leaves the owner's side alone, and a thread that is gone stays gone. -/
theorem threadStep_frame (hstep : s.threadStep B = some t) :
    t.pc = s.pc ∧ t.pending = s.pending ∧ t.takes = s.takes ∧
      (s.Gone → t.Gone ∧ t.results = s.results) := by
  have hlive : ∀ {phase : Phase α}, s.phase = phase → phase ≠ .outputDropped →
      phase ≠ .inputDropped → phase ≠ .gone → s.Gone → t.Gone ∧ t.results = s.results := by
    intro phase hp h1 h2 h3 hgone
    subst hp
    rcases hgone.2 with h | h | h
    · exact (h1 h).elim
    · exact (h2 h).elim
    · exact (h3 h).elim
  unfold threadStep at hstep
  split at hstep
  · next hp =>
    split at hstep
    · cases hstep
      exact ⟨rfl, rfl, rfl, hlive hp nofun nofun nofun⟩
    · split at hstep
      · cases hstep
      · cases hstep
        exact ⟨rfl, rfl, rfl, hlive hp nofun nofun nofun⟩
  · next command hp =>
    cases hstep
    obtain ⟨phase, active, ae, adapter, heq⟩ := perform_frame B s command
    rw [heq] at hlive ⊢
    exact ⟨rfl, rfl, rfl, hlive hp nofun nofun nofun⟩
  · next result hp =>
    split at hstep
    · cases hstep
      exact ⟨rfl, rfl, rfl, hlive hp nofun nofun nofun⟩
    · cases hstep
      exact ⟨rfl, rfl, rfl, hlive hp nofun nofun nofun⟩
  · next result hp =>
    split at hstep
    · cases hstep
      exact ⟨rfl, rfl, rfl, hlive hp nofun nofun nofun⟩
    · cases hstep
      exact ⟨rfl, rfl, rfl, hlive hp nofun nofun nofun⟩
  · next hp =>
    cases hstep
    exact ⟨rfl, rfl, rfl, hlive hp nofun nofun nofun⟩
  · cases hstep
    exact ⟨rfl, rfl, rfl, fun hgone => ⟨⟨hgone.1, .inr (.inl rfl)⟩, rfl⟩⟩
  · cases hstep
    exact ⟨rfl, rfl, rfl, fun hgone => ⟨⟨hgone.1, .inr (.inr rfl)⟩, rfl⟩⟩
  · cases hstep

omit [Sample α] in
theorem die_of_gone (h : s.Gone) : s.die = none := by
  unfold die
  rcases h.2 with hp | hp | hp <;> rw [hp]

/-- A step that is no call keeps the owner on its way to publish all it holds. -/
theorem step_emptying {event : Event α} (hcall : ∀ call, event ≠ .call call) (h : Emptying s)
    (hstep : s.step B event = some t) : Emptying t := by
  -- the thread's steps: the owner's side stands still
  have hthread : t.pc = s.pc → t.pending = s.pending →
      (s.Gone → t.Gone ∧ t.results = s.results) → Emptying t := by
    intro hpc hpending hgone
    cases h with
    | empty hnone hn => exact .empty (hpending.trans hnone) (hpc ▸ hn)
    | falling reason take next hfall hn => exact .falling reason take next (hpc.trans hfall) hn
    | polling left next hpoll hn hdead hroom =>
      obtain ⟨hdead', hresults⟩ := hgone hdead
      exact .polling left next (hpc.trans hpoll) (hpc ▸ hn) hdead' (hresults ▸ hroom)
  cases event with
  | call call => exact (hcall call rfl).elim
  | owner => exact (ownerStep_nears h hstep).emptying
  | thread =>
    obtain ⟨hpc, hpending, -, hgone⟩ := threadStep_frame B hstep
    exact hthread hpc hpending hgone
  | die =>
    refine hthread ?_ ?_ fun hgone => ?_
    · rw [die_eq hstep]
    · rw [die_eq hstep]
    · have hnone := die_of_gone hgone
      cases hnone.symm.trans hstep

/-- The work the thread has before it is gone: its place in the loop and the queued commands. -/
def work (s : System α β) : ℕ :=
  5 * s.queue.length +
    match s.phase with
    | .received _ => 7
    | .publishing _ => 6
    | .offering _ => 5
    | .waiting => 4
    | .leaving => 3
    | .outputDropped => 2
    | .inputDropped => 1
    | .gone => 0

omit [Sample α] in
theorem deliver_work (s : System α β) (blocks : List (Output α)) :
    (s.deliver blocks).work ≤ 5 * s.queue.length + 6 := by
  unfold deliver
  split
  · exact Nat.add_le_add_left (by decide : 4 ≤ 6) _
  · exact le_rfl

theorem perform_work (s : System α β) (command : Command α) :
    (s.perform B command).work ≤ 5 * s.queue.length + 6 := by
  unfold perform
  cases command with
  | input job =>
    dsimp only
    split
    · exact Nat.add_le_add_left (by decide : 4 ≤ 6) _
    split
    · exact Nat.add_le_add_left (by decide : 3 ≤ 6) _
    split
    · exact Nat.add_le_add_left (by decide : 3 ≤ 6) _
    · exact deliver_work _ _
  | finish =>
    dsimp only
    split
    · exact deliver_work _ _
    · exact Nat.add_le_add_left (by decide : 4 ≤ 6) _

/-- With no sender left the thread goes on to its end; it waits only for room in the result
    channel. -/
theorem threadStep_work (hcommands : s.commands = false) (hphase : s.phase ≠ .gone) :
    ∃ t, s.threadStep B = some t ∧
      (t.work < s.work ∨ s.config.queuedBlocks < s.results.length) := by
  unfold threadStep
  cases hp : s.phase with
  | gone => exact (hphase hp).elim
  | waiting =>
    dsimp only
    cases hq : s.queue with
    | cons command rest =>
      refine ⟨_, rfl, .inl ?_⟩
      simp only [work, hp, hq, length_cons]
      omega
    | nil =>
      dsimp only
      rw [hcommands]
      refine ⟨_, rfl, .inl ?_⟩
      simp only [work, hp, hq]
      omega
  | received command =>
    refine ⟨_, rfl, .inl (lt_of_le_of_lt (perform_work B s command) ?_)⟩
    simp only [work, hp]
    omega
  | publishing result =>
    dsimp only
    split
    · refine ⟨_, rfl, .inl ?_⟩
      simp only [work, hp]
      omega
    · refine ⟨_, rfl, .inl ?_⟩
      simp only [work, hp]
      omega
  | offering result =>
    dsimp only
    split
    · next hfull => exact ⟨_, rfl, .inr hfull⟩
    · refine ⟨_, rfl, .inl ?_⟩
      simp only [work, hp]
      omega
  | leaving =>
    refine ⟨_, rfl, .inl ?_⟩
    simp only [work, hp]
    omega
  | outputDropped =>
    refine ⟨_, rfl, .inl ?_⟩
    simp only [work, hp, length_nil]
    omega
  | inputDropped =>
    refine ⟨_, rfl, .inl ?_⟩
    simp only [work, hp]
    omega

end Thread

/-! ## A whole call -/

end System

def Event.isOwner : Event α → Bool
  | .owner => true
  | _ => false

namespace System

variable [Sample α] {B : Backend α β} {s t : System α β} {events : List (Event α)}

/-- The rest of a call that publishes what is held: the owner's steps are bounded, whatever the
    thread does between them, and no accepted sample is forgotten. -/
theorem run_emptying (h : Emptying s) (hcalls : ∀ e ∈ events, ∀ call, e ≠ .call call)
    (hrun : Run (step B) (quietStop · ·) s events t) :
    Emptying t ∧ s.takes ⊆ t.takes ∧
      events.countP Event.isOwner + stepsLeft t.pc ≤ stepsLeft s.pc := by
  induction hrun with
  | nil s => exact ⟨h, Subset.refl _, by simp⟩
  | @cons s u t event events _ hstep _ ih =>
    have hcall := hcalls event mem_cons_self
    obtain ⟨hempty, htakes, hsteps⟩ := ih (step_emptying B hcall h hstep)
      fun e he => hcalls e (mem_cons_of_mem _ he)
    have hidle : u.pc = s.pc → u.takes = s.takes → Event.isOwner event = false →
        s.takes ⊆ t.takes ∧
          (event :: events).countP Event.isOwner + stepsLeft t.pc ≤ stepsLeft s.pc := by
      intro hpc htakes' hev
      rw [countP_cons_of_neg (by rw [hev]; exact Bool.false_ne_true), ← hpc]
      exact ⟨htakes' ▸ htakes, hsteps⟩
    refine ⟨hempty, ?_⟩
    cases event with
    | call call => exact (hcall call rfl).elim
    | owner =>
      have hnears := ownerStep_nears h hstep
      have hbusy := stepsLeft_pos h hstep
      rw [countP_cons_of_pos rfl]
      exact ⟨Subset.trans hnears.takes htakes, by have := hnears.steps; omega⟩
    | thread =>
      obtain ⟨hpc, -, htakes', -⟩ := threadStep_frame B hstep
      exact hidle hpc htakes' rfl
    | die =>
      refine hidle ?_ ?_ rfl
      · rw [die_eq hstep]
      · rw [die_eq hstep]
        rfl

omit [Sample α] in
/-- The owner never waits inside a call. -/
theorem ownerStep_of_busy (h : ∀ r, s.pc ≠ .idle r) : ∃ t, s.ownerStep = some t := by
  unfold ownerStep
  cases hpc : s.pc with
  | idle r => exact (h r hpc).elim
  | polling left next => cases left <;> exact ⟨_, rfl⟩
  | checking =>
    dsimp only
    split
    · exact ⟨_, rfl⟩
    · exact ⟨_, rfl⟩
  | sendingFinish =>
    dsimp only
    split
    · exact ⟨_, rfl⟩
    · exact ⟨_, rfl⟩
  | falling | sending | resetting | cancelling => exact ⟨_, rfl⟩

/-- What is left of a call that publishes all the owner holds, after the steps `rest`. -/
structure Released (B : Backend α β) (s : System α β) (rest : List (Event α)) (t : System α β) :
    Prop where
  bounded : rest.countP Event.isOwner ≤ 2 * s.config.queuedBlocks + 6
  goes_on : (∀ r, t.pc ≠ .idle r) → ∃ u, t.step B .owner = some u
  recorded : s.cur ∈ t.takes
  out : ∀ r, t.pc = .idle r → AllOut t

theorem call_released {call : Call α} (hinv : Inv s) (hrel : s.Releases call)
    (hcalls : ∀ e ∈ events, ∀ call, e ≠ .call call)
    (hrun : Run (step B) (quietStop · ·) s (.call call :: events) t) : Released B s events t := by
  have hcorrect := (hrun.invariant (fun _ event _ h hq hs => step_inv B event h hq hs) hinv).correct
  cases hrun with
  | cons _ hstep hrest =>
    unfold step at hstep
    dsimp only at hstep
    split at hstep
    · cases hstep
      have hnears := enter_nears hrel
      obtain ⟨hempty, htakes, hsteps⟩ := run_emptying hnears.emptying hcalls hrest
      have hcount := hnears.steps
      refine ⟨by omega, ownerStep_of_busy, htakes (hnears.takes ?_), fun r hidle => ?_⟩
      · exact mem_append_right _ (mem_singleton_self _)
      · exact hcorrect.allOut (hempty.held hidle nofun nofun)
    · cases hstep

end System

/-- In every interleaving in which the owner holds nothing at the moment it finds the thread
    stopped, the samples accepted are published in order and without a gap, each at most once,
    the rest is held, and no fenced or repeated result is published. Nothing stays held: a
    cancel, a reset and a `poll` at the deadline or with the thread gone return with everything
    published, after boundedly many steps of the owner's own; and once the owner has finished,
    the thread goes on to its end. -/
theorem worker_correct [Sample α] (B : Backend α β) (backend : β) (config : Config)
    (epoch start : ℕ) (s t : System α β) (events : List (Event α))
    (hnew : System.new B backend config epoch start = .ok s)
    (hrun : Run (System.step B) (·.quietStop ·) s events t) :
    t.Correct ∧
    (∀ call rest u, t.Releases call → (∀ e ∈ rest, ∀ call, e ≠ .call call) →
      Run (System.step B) (·.quietStop ·) t (.call call :: rest) u → t.Released B rest u) ∧
    (t.commands = false → t.phase ≠ .gone → ∃ u, t.step B .thread = some u ∧
      (u.work < t.work ∨ t.config.queuedBlocks < t.results.length)) := by
  have hinv := hrun.invariant (fun _ event _ h hq hs => step_inv B event h hq hs) (new_inv hnew)
  exact ⟨hinv.correct, fun call rest u hrel hcalls => call_released hinv hrel hcalls,
    threadStep_work B⟩

/-- One sample a block, one block in the queue, frames of two samples. -/
def smallConfig : Config := ⟨⟨2, 1, 3, 4⟩, 1, 1, 4, 10⟩

def offer (start : ℕ) (sample : ℤ) : Call (Option ℤ) :=
  .submit ⟨7, start, [some sample], none⟩ 0

/-- A block is accepted, the thread returns it as it was, and the owner takes the result
    with its next `submit`; then the thread stops, and the second block is held. -/
def quietEvents : List (Event (Option ℤ)) :=
  [.call (offer 0 5), .owner, .owner, .owner, .thread, .thread, .thread, .thread,
    .call (offer 1 6), .owner, .owner, .owner, .owner, .die, .thread]

/-- The next `poll` finds the thread gone and publishes the block raw. -/
theorem worker_correct_quiet : ∃ s t u, System.new Aec.copyBackend 1 smallConfig 7 0 = .ok s ∧
      Run (System.step Aec.copyBackend) (·.quietStop ·) s quietEvents t ∧
      positions 7 t.cells = [0] ∧ heldSamples t.pending = [some 6] ∧ t.Correct ∧
      Run (System.step Aec.copyBackend) (·.quietStop ·) t
        [.call (.poll 1), .owner, .thread, .owner, .owner] u ∧
      u.AllOut ∧ positions 7 u.cells = [0, 1] := by
  refine ⟨_, _, _, rfl, run_of_runAll rfl, by decide, rfl, ?_, run_of_runAll rfl, ?_, by decide⟩
  · exact (worker_correct Aec.copyBackend 1 smallConfig 7 0 _ _ quietEvents rfl
      (run_of_runAll rfl)).1
  · have hreleased := (worker_correct Aec.copyBackend 1 smallConfig 7 0 _ _ quietEvents rfl
      (run_of_runAll rfl)).2.1 (.poll 1) [.owner, .thread, .owner, .owner] _
      ⟨by decide, .inr ⟨⟨rfl, .inl rfl⟩, by decide⟩⟩ (by simp) (run_of_runAll rfl)
    exact hreleased.out _ rfl

/-- A block is accepted; the next is offered, `poll` finds nothing, and only then does the
    thread stop: the owner publishes the new block first and the old one after it. -/
def stopEvents : List (Event (Option ℤ)) :=
  [.call (offer 0 5), .owner, .owner, .owner, .call (offer 1 6), .owner, .die, .thread,
    .thread, .thread, .owner, .call (.poll 1), .owner, .owner, .owner]

theorem worker_out_of_order : ∃ s t, System.new Aec.copyBackend 1 smallConfig 7 0 = .ok s ∧
      Run (System.step Aec.copyBackend) (fun _ _ => true) s stopEvents t ∧
      positions 7 t.cells = [1, 0] ∧ ¬t.Correct := by
  refine ⟨_, _, rfl, run_of_runAll rfl, by decide, fun h => ?_⟩
  obtain ⟨n, -, htiled, -⟩ := h.tiled_cur
  have hpos : [1, 0] = range' 0 n := htiled
  have hlen := congrArg length hpos
  rw [length_range'] at hlen
  rw [← hlen] at hpos
  exact absurd hpos (by decide)

end FlyOnTheWall.AecWorker
