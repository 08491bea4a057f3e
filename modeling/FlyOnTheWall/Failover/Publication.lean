/-
  What a source publishes, over every interleaving of its worker with everybody else.

  `Published` is the invariant of the event list: one `Closed` at most and nothing after it,
  finals only from commits of the journal, and nothing of a provider epoch before its
  switch was announced. The worker keeps it along its whole program as long as it emits only
  in an announced epoch (`Announced`), which fails nowhere but between the journal's switch
  and its publication.
-/
import FlyOnTheWall.Failover.Saved

namespace FlyOnTheWall.Stream

open Lib Replay Coverage Endpoint Handoff List

variable {S : Setup}

/-! ## The event list -/

def closedEvent : Event := .transcript (.state .closed)

/-- The epoch's switch is among the events. -/
def SwitchedTo (n : ℕ) (events : List Sent) : Prop :=
  ∃ x ∈ events, ∃ epoch, x.event = .providerSwitch epoch ∧ epoch.number = n

/-- The segment is in the journal. -/
def Carried (segment : TranscriptSegment) (w : World S) : Prop :=
  ∃ c ∈ w.journal.commits, segment ∈ c.segments

variable (first : Option ℕ)

/-- `first` is the epoch of the launch, if it needs no announcement. -/
structure Published (w : World S) : Prop where
  unfenced : w.gate.fenced = false → ∀ x ∈ w.events, x.event ≠ closedEvent
  fenced : w.gate.fenced = true → ∃ before last, w.events = before ++ [last] ∧
    last.event = closedEvent ∧ ∀ x ∈ before, x.event ≠ closedEvent
  finals : ∀ x ∈ w.events, ∀ segment, x.event = .transcript (.final segment) → Carried segment w
  ordered : ∀ before x after, w.events = before ++ x :: after →
    ∀ n event, x.event = .transcript event → x.epoch = some n →
      first = some n ∨ SwitchedTo n before

/-- The worker's epoch may be emitted in. -/
def Announced (w : World S) : Prop :=
  first = some w.journal.epoch.number ∨ w.gate.fenced = true ∨
    SwitchedTo w.journal.epoch.number w.events

theorem SwitchedTo.mono {n : ℕ} {before after : List Sent} (h : SwitchedTo n before)
    (hpre : before <+: after) : SwitchedTo n after := by
  obtain ⟨x, hx, epoch, hev, hn⟩ := h
  exact ⟨x, hpre.subset hx, epoch, hev, hn⟩

variable {v w : World S}

/-- Only what the event list, the gate and the commits say matters. -/
theorem Published.congr {first : Option ℕ} (h : Published first w)
    (hgate : v.gate.fenced = w.gate.fenced) (hevents : v.events = w.events)
    (hcommits : w.journal.commits <+: v.journal.commits) : Published first v := by
  refine ⟨?_, ?_, ?_, ?_⟩
  · rw [hgate, hevents]
    exact h.unfenced
  · rw [hgate, hevents]
    exact h.fenced
  · rw [hevents]
    intro x hx segment hseg
    obtain ⟨c, hc, hmem⟩ := h.finals x hx segment hseg
    exact ⟨c, hcommits.subset hc, hmem⟩
  · rw [hevents]
    exact h.ordered

theorem Published.extend {first : Option ℕ} {x : Sent} (h : Published first w)
    (hopen : w.gate.fenced = false) (hevents : v.events = w.events ++ [x])
    (hclosed : v.gate.fenced = true ↔ x.event = closedEvent)
    (hcommits : v.journal.commits = w.journal.commits)
    (hfinal : ∀ segment, x.event = .transcript (.final segment) → Carried segment w)
    (hepoch : ∀ n event, x.event = .transcript event → x.epoch = some n →
      first = some n ∨ SwitchedTo n w.events) : Published first v := by
  refine ⟨?_, ?_, ?_, ?_⟩
  · intro hv y hy
    rw [hevents] at hy
    rcases mem_append.mp hy with hy | hy
    · exact h.unfenced hopen y hy
    · rw [mem_singleton.mp hy]
      intro hx
      rw [hclosed.mpr hx] at hv
      cases hv
  · intro hv
    exact ⟨w.events, x, hevents, hclosed.mp hv, h.unfenced hopen⟩
  · intro y hy segment hseg
    rw [hevents] at hy
    have hcarried : Carried segment w := by
      rcases mem_append.mp hy with hy | hy
      · exact h.finals y hy segment hseg
      · rw [mem_singleton.mp hy] at hseg
        exact hfinal segment hseg
    obtain ⟨c, hc, hmem⟩ := hcarried
    exact ⟨c, hcommits ▸ hc, hmem⟩
  · intro before y after hsplit n event hevent hy
    rw [hevents] at hsplit
    rcases concat_eq_append_cons hsplit with ⟨rfl, rfl⟩ | ⟨rest, hold⟩
    · exact hepoch n event hevent hy
    · exact h.ordered before y rest hold n event hevent hy

/-! ## The gate's sections -/

theorem emit_fenced (h : w.gate.fenced = true) (event : StreamEvent) : w.emit event = w := if_pos h

theorem emit_open (h : w.gate.fenced = false) (event : StreamEvent) : w.emit event =
      { w with events := w.events ++ [⟨.transcript event, some w.journal.epoch.number⟩] } :=
  if_neg (by rw [h]; exact Bool.false_ne_true)

theorem announce_open (h : w.gate.fenced = false) (epoch : ProviderEpoch) : w.announce epoch =
      { w with
        gate := { w.gate with status := { w.gate.status with phase := .onDevice, epoch } }
        events := w.events ++ [⟨.providerSwitch epoch, some epoch.number⟩] } :=
  if_neg (by rw [h]; exact Bool.false_ne_true)

variable (status : World S → Status)

/-- A section under the gate that publishes nothing. -/
def World.setStatus (w : World S) : World S :=
  if w.gate.fenced then w else { w with gate := { w.gate with status := status w } }

theorem Published.terminal {first : Option ℕ} (h : Published first w) (error : Option SttError) :
    Published first (w.terminal error) := by
  unfold World.terminal
  split
  · exact h
  rename_i hfenced
  have hopen : w.gate.fenced = false := Bool.eq_false_iff.mpr hfenced
  cases error with
  | none =>
    refine h.extend hopen (x := ⟨closedEvent, none⟩) ?_ ⟨fun _ => rfl, fun _ => rfl⟩ rfl
      (fun _ h => nomatch h) (fun _ _ _ h => nomatch h)
    show w.events ++ [] ++ [_] = _
    rw [append_nil]
    rfl
  | some e =>
    have hmid : Published first { w with events := w.events ++ [⟨.transcript (.error e), none⟩] } :=
      h.extend hopen rfl ⟨fun hf => (hfenced hf).elim, fun h => nomatch h⟩ rfl
        (fun _ h => nomatch h) (fun _ _ _ h => nomatch h)
    exact hmid.extend hopen rfl ⟨fun _ => rfl, fun _ => rfl⟩ rfl (fun _ h => nomatch h)
      (fun _ _ _ h => nomatch h)

/-- The gate and the events as they are. -/
def Frozen (w v : World S) : Prop := v.gate = w.gate ∧ v.events = w.events

theorem terminal_frozen (h : w.gate.fenced = true) (error : Option SttError) :
    w.terminal error = w := if_pos h

section
variable (w : World S) (error : Option SttError)

theorem terminal_grows : w.events <+: (w.terminal error).events := by
  unfold World.terminal
  split
  · exact prefix_refl _
  · rw [append_assoc]
    exact prefix_append _ _

theorem terminal_journal : (w.terminal error).journal = w.journal := by
  unfold World.terminal
  split <;> rfl

end

/-! ## The contract -/

/-- Nobody else touches the journal or takes an event back, and a fence stays. -/
structure Rely (w v : World S) : Prop where
  journal : v.journal = w.journal
  events : w.events <+: v.events
  fenced : w.gate.fenced = true → Frozen w v

theorem Rely.refl (w : World S) : Rely w w := ⟨rfl, prefix_refl _, fun _ => ⟨rfl, rfl⟩⟩

theorem Rely.trans {u : World S} (h1 : Rely u v) (h2 : Rely v w) : Rely u w where
  journal := h2.journal.trans h1.journal
  events := h1.events.trans h2.events
  fenced h := by
    obtain ⟨hgate, hevents⟩ := h1.fenced h
    obtain ⟨hgate', hevents'⟩ := h2.fenced (hgate ▸ h)
    exact ⟨hgate'.trans hgate, hevents'.trans hevents⟩

def publication (S : Setup) (first : Option ℕ) : Contract Label (World S) where
  inv := Published first
  rely := Rely
  assumed _ _ := True
  promised _ w v := w.gate.fenced = true → Frozen w v
  rely_refl := Rely.refl
  rely_trans := Rely.trans

theorem announced_stable : (publication S first).Stable (Announced first) := by
  rintro w v hrely (hfirst | hfenced | hswitched)
  · exact .inl (hrely.journal ▸ hfirst)
  · exact .inr (.inl ((hrely.fenced hfenced).1 ▸ hfenced))
  · exact .inr (.inr (hrely.journal ▸ hswitched.mono hrely.events))

/-- A program that emits only in announced epochs. -/
def Sound {α : Type} (p : Worker S α) : Prop :=
  Triple (publication S first) (Announced first) p (fun _ => Announced first)
    (fun _ => Announced first)

variable {first : Option ℕ} {α β : Type} {name : Label}

open Triple

theorem Sound.pure (a : α) : Sound first (Pure.pure a : Worker S α) := Triple.pure fun _ _ h => h

theorem Sound.fail (e : SttError) : Sound first (Proc.fail e : Worker S α) :=
  Triple.fail fun _ _ h => h

theorem Sound.bind {p : Worker S α} {f : α → Worker S β} (hp : Sound first p)
    (hf : ∀ a, Sound first (f a)) : Sound first (p >>= f) := Triple.bind hp hf

theorem Sound.read (name : Label) (f : World S → α) : Sound first (Proc.read name f : Worker S α) :=
  Triple.read (announced_stable first) fun _ _ h _ => ⟨fun _ => ⟨rfl, rfl⟩, h⟩

/-- A step outside the gate: it leaves the events and the gate alone, keeps the epoch, and at
    most adds commits. -/
structure Outside (w v : World S) : Prop where
  gate : v.gate = w.gate
  events : v.events = w.events
  epoch : v.journal.epoch = w.journal.epoch
  commits : w.journal.commits <+: v.journal.commits

theorem Outside.announced (h : Outside w v) (ha : Announced first w) : Announced first v := by
  unfold Announced
  rw [h.gate, h.events, h.epoch]
  exact ha

theorem Outside.published (h : Outside w v) (hp : Published first w) : Published first v :=
  hp.congr (congrArg Publication.fenced h.gate) h.events h.commits

theorem Sound.atomic {f : World S → Except SttError α × World S}
    (h : ∀ w, Outside w (f w).2) : Sound first (Proc.atomic name f : Worker S α) := by
  refine Triple.atomic (announced_stable first) fun w hinv ha _ => ?_
  refine ⟨(h w).published hinv, fun _ => ⟨(h w).gate, (h w).events⟩, ?_⟩
  have ha' := (h w).announced ha
  cases (f w).1 with
  | ok | error => exact ha'

variable {f : World S → World S} {K : World S → Prop} {event : StreamEvent} {p : Worker S Bool}

theorem Sound.update (h : ∀ w, Outside w (f w)) :
    Sound first (Proc.update name f : Worker S Unit) :=
  Triple.update (announced_stable first) fun w hinv ha _ =>
    ⟨(h w).published hinv, fun _ => ⟨(h w).gate, (h w).events⟩, (h w).announced ha⟩

theorem Sound.forEach {f : α → Worker S Unit} {rest : List α} (h : ∀ a ∈ rest, Sound first (f a)) :
    Sound first (Proc.forEach f rest) := Triple.forEach h

theorem Outside.own (hgate : v.gate = w.gate) (hevents : v.events = w.events)
    (hjournal : v.journal = w.journal) : Outside w v :=
  ⟨hgate, hevents, congrArg Journal.epoch hjournal, hjournal ▸ prefix_refl _⟩

/-! ## The worker's procedures -/

theorem unlessFenced_sound (message : String) :
    Sound first (unlessFenced message : Worker S Unit) :=
  (Sound.read _ _).bind fun b => by
    cases b with
    | true => exact Sound.fail _
    | false => exact Sound.pure ()

/-- `p` keeps what the worker knows, wherever it stops. -/
def Keeps (first : Option ℕ) (K : World S → Prop) (p : Worker S Unit) : Prop :=
  Triple (publication S first) (fun w => Announced first w ∧ K w) p
    (fun _ w => Announced first w ∧ K w) (fun _ => Announced first)

theorem Keeps.sound {p : Worker S Unit} (h : Keeps first (fun _ => True) p) : Sound first p :=
  Triple.conseq h (fun _ _ ha => ⟨ha, trivial⟩) (fun _ _ _ ha => ha.1) (fun _ _ _ ha => ha)

/-- An event may be emitted if it is not `Closed` and, if final, is in the journal. -/
theorem emit_triple (event : StreamEvent) (hclosed : event ≠ .state .closed) (K : World S → Prop)
    (hstable : (publication S first).Stable K)
    (hcarried : ∀ w segment, K w → event = .final segment → Carried segment w)
    (hkeep : ∀ w, K w → K (w.emit event)) : Keeps first K (emit event) := by
  have hboth : (publication S first).Stable fun w => Announced first w ∧ K w :=
    fun w v hr h => ⟨announced_stable first w v hr h.1, hstable w v hr h.2⟩
  refine update hboth fun w hinv h _ => ?_
  obtain ⟨ha, hk⟩ := h
  cases hf : w.gate.fenced with
  | true =>
    rw [emit_fenced hf]
    exact ⟨hinv, fun _ => ⟨rfl, rfl⟩, ha, hk⟩
  | false =>
    have hkept := hkeep w hk
    have hepoch : first = some w.journal.epoch.number ∨
        SwitchedTo w.journal.epoch.number w.events := by
      rcases ha with hfirst | hfenced | hswitched
      · exact .inl hfirst
      · rw [hf] at hfenced
        cases hfenced
      · exact .inr hswitched
    rw [emit_open hf] at hkept ⊢
    refine ⟨?_, fun h => (nomatch hf.symm.trans h), ?_, hkept⟩
    · refine Published.extend hinv hf rfl ⟨fun h => ?_, fun h => ?_⟩ rfl ?_ ?_
      · exact nomatch hf.symm.trans h
      · cases h
        exact (hclosed rfl).elim
      · intro segment hseg
        cases hseg
        exact hcarried w segment hk rfl
      · intro n event' _ hn
        cases hn
        exact hepoch
    · exact hepoch.elim .inl fun h => .inr (.inr (h.mono (prefix_append _ _)))

theorem emit_sound (event : StreamEvent) (hclosed : event ≠ .state .closed)
    (hfinal : ∀ segment, event ≠ .final segment) :
    Sound first (emit event : Worker S Unit) :=
  (emit_triple event hclosed (fun _ => True) (fun _ _ _ _ => trivial)
    (fun _ segment _ h => (hfinal segment h).elim) fun _ _ => trivial).sound

theorem journalRecord_outside (throughSample : ℕ) (segments : List TranscriptSegment)
    (gap : Option String) (w : World S) :
    Outside w (w.journalRecord throughSample segments gap).2 := by
  rcases record_wrote w throughSample segments gap with ⟨-, _, _, hj⟩ | ⟨-, _, hj⟩
  · refine ⟨rfl, rfl, ?_, ?_⟩ <;> rw [hj]
  · refine ⟨rfl, rfl, ?_, ?_⟩
    · rw [hj]
      rfl
    · rw [hj]
      exact prefix_append _ _

/-- The segments are in the journal. -/
def AllCarried (segments : List TranscriptSegment) (w : World S) : Prop :=
  ∀ segment ∈ segments, Carried segment w

theorem journalCommit_carried (throughSample : ℕ) (segments : List TranscriptSegment)
    (w : World S) (h : (w.journalCommit throughSample segments).1 = .ok .new) :
    AllCarried segments (w.journalCommit throughSample segments).2 := by
  intro segment hseg
  rcases record_wrote w throughSample segments none with ⟨hne, -⟩ | ⟨-, _, hj⟩
  · exact (hne h).elim
  · refine ⟨w.handed throughSample segments none, ?_, hseg⟩
    show _ ∈ (w.journalRecord throughSample segments none).2.journal.commits
    rw [hj]
    exact mem_append_right _ mem_cons_self

/-- An assertion that only reads the journal. -/
theorem stable_of_journal (h : ∀ w v, v.journal = w.journal → K w → K v) :
    (publication S first).Stable K := fun w v hrely hk => h w v hrely.journal hk

theorem AllCarried.congr {segments : List TranscriptSegment} (h : AllCarried segments w)
    (hjournal : v.journal = w.journal) : AllCarried segments v := by
  intro segment hseg
  obtain ⟨c, hc, hmem⟩ := h segment hseg
  exact ⟨c, hjournal ▸ hc, hmem⟩

theorem emit_journal (event : StreamEvent) (w : World S) : (w.emit event).journal = w.journal := by
  unfold World.emit
  split <;> rfl

/-- A section that only writes the status keeps what the worker knows. -/
theorem status_triple (hkeep : ∀ w v, v.journal = w.journal → K w → K v) :
    Keeps first K (Proc.update .gate (World.setStatus status)) := by
  have hstable : (publication S first).Stable fun w => Announced first w ∧ K w :=
    fun w v hr h => ⟨announced_stable first w v hr h.1, hkeep w v hr.journal h.2⟩
  refine update hstable fun w hinv h _ => ?_
  unfold World.setStatus
  split
  · exact ⟨hinv, fun _ => ⟨rfl, rfl⟩, h⟩
  · next hopen =>
    exact ⟨hinv.congr rfl rfl (prefix_refl _), fun hf => (hopen hf).elim, h.1, hkeep w _ rfl h.2⟩

theorem status_sound : Sound first (Proc.update .gate (World.setStatus status) : Worker S Unit) :=
  (status_triple status fun _ _ _ _ => trivial).sound

theorem finals_triple (segments : List TranscriptSegment) : Keeps (S := S) first
    (AllCarried segments) (Proc.forEach (fun segment => emit (.final segment)) segments) := by
  refine forEach fun segment hseg => emit_triple (.final segment) nofun _ ?_ ?_ ?_
  · exact stable_of_journal fun w v hj hk => hk.congr hj
  · intro w other hk h
    cases h
    exact hk segment hseg
  · exact fun w hk => hk.congr (emit_journal _ w)

/-- The finals of a commit are published once the journal has it. -/
theorem commit_sound (throughSample : ℕ) (segments : List TranscriptSegment) :
    Sound first (commit throughSample segments : Worker S Unit) := by
  refine (unlessFenced_sound _).bind fun _ => ?_
  refine bind (Q := fun outcome w =>
    Announced first w ∧ (outcome = .new → AllCarried segments w)) ?_ fun outcome => ?_
  · refine atomic (announced_stable first) fun w hinv ha _ => ?_
    have hout := journalRecord_outside throughSample segments none w
    refine ⟨hout.published hinv, fun _ => ⟨hout.gate, hout.events⟩, ?_⟩
    cases hr : (w.journalCommit throughSample segments).1 with
    | error e => exact hout.announced ha
    | ok outcome =>
      refine ⟨hout.announced ha, fun hnew => ?_⟩
      rw [hnew] at hr
      exact journalCommit_carried throughSample segments w hr
  · refine bind (status_triple _ fun w v hj hk hnew => (hk hnew).congr hj) fun _ => ?_
    cases outcome with
    | new =>
      exact Triple.conseq (finals_triple segments) (fun _ _ h => ⟨h.1, h.2 rfl⟩)
        (fun _ _ _ h => h.1)
        (fun _ _ _ h => h)
    | alreadyCommitted => exact pure fun _ _ h => h.1

theorem skip_sound (throughSample samples : ℕ) (error : SttError) :
    Sound first (skip throughSample samples error : Worker S Unit) :=
  (unlessFenced_sound _).bind fun _ =>
    (Sound.atomic (journalRecord_outside throughSample [] (some (gapReason error)))).bind fun _ =>
    (status_sound _).bind fun _ => (status_sound _).bind fun _ =>
      emit_sound _ nofun fun _ h => nomatch h

theorem infer_sound (chunk : Chunk) : Sound first (infer chunk : Worker S Unit) := by
  refine (unlessFenced_sound _).bind fun _ => ?_
  refine Sound.bind (Sound.atomic fun _ => .own rfl rfl rfl) fun answer => ?_
  cases answer with
  | error error =>
    refine (Sound.read _ _).bind fun base => ?_
    split
    · exact skip_sound _ _ _
    · exact Sound.fail _
  | ok recognized =>
    refine (unlessFenced_sound _).bind fun _ => ?_
    split
    · exact Sound.fail _
    · exact Sound.bind (Sound.atomic fun _ => .own rfl rfl rfl) fun segments =>
        (Sound.read _ _).bind fun base => commit_sound _ _

/-- Between the journal's switch and its publication nothing is emitted. -/
theorem demoteLocal_sound (reason : SwitchReason) :
    Sound first (demoteLocal reason : Worker S Unit) := by
  unfold demoteLocal
  split
  · exact Sound.fail _
  rename_i runtime _
  refine Sound.bind (Sound.update fun _ => .own rfl rfl rfl) fun _ => ?_
  have hstable (epoch : ProviderEpoch) :
      (publication S first).Stable fun w => w.journal.epoch = epoch :=
    stable_of_journal fun w v hj hk => hj ▸ hk
  refine bind (Q := fun epoch w => w.journal.epoch = epoch) ?_ fun epoch => ?_
  · refine atomic (announced_stable first) fun w hinv ha _ => ?_
    rcases switch_wrote w runtime.engine reason with ⟨hno, _, _, hj⟩ | ⟨epoch, _, -, hok, hj⟩
    · refine ⟨hinv.congr rfl rfl (by rw [hj]), fun _ => ⟨rfl, rfl⟩, ?_⟩
      cases hr : (w.journalSwitch runtime.engine reason).1 with
      | ok epoch => exact (hno epoch hr).elim
      | error e =>
        show Announced first _
        unfold Announced
        rw [hj]
        exact ha
    · refine ⟨hinv.congr rfl rfl ?_, fun _ => ⟨rfl, rfl⟩, ?_⟩
      · rw [hj]
        exact prefix_refl _
      · rw [hok]
        exact congrArg Journal.epoch hj
  · refine bind (Q := fun _ w => w.journal.epoch = epoch) ?_ fun _ => ?_
    · exact update (hstable epoch) fun w hinv hk _ =>
        ⟨hinv.congr rfl rfl (prefix_refl _), fun _ => ⟨rfl, rfl⟩, hk⟩
    · refine bind (Q := fun _ => Announced first) ?_ fun _ => unlessFenced_sound _
      refine update (hstable epoch) fun w hinv hk _ => ?_
      cases hf : w.gate.fenced with
      | true =>
        have hsame : w.announce epoch = w := if_pos hf
        rw [hsame]
        exact ⟨hinv, fun _ => ⟨rfl, rfl⟩, .inr (.inl hf)⟩
      | false =>
        rw [announce_open hf]
        refine ⟨Published.extend hinv hf rfl ⟨?_, fun h => nomatch h⟩ rfl (fun _ h => nomatch h)
            (fun _ _ h => nomatch h),
          fun h => (nomatch hf.symm.trans h), .inr (.inr ?_)⟩
        · exact fun h => (nomatch hf.symm.trans h)
        · exact ⟨⟨.providerSwitch epoch, some epoch.number⟩,
            mem_append_right _ mem_cons_self, epoch, rfl,
            congrArg ProviderEpoch.number hk.symm⟩

theorem complete_sound (last : ℕ) : Sound first (complete last : Worker S Unit) := by
  refine (unlessFenced_sound _).bind fun _ => (Sound.read _ _).bind fun closed =>
    (Sound.read _ _).bind fun committed => ?_
  split
  · exact Sound.fail _
  · split
    · exact Sound.pure ()
    · exact Sound.atomic fun _ => .own rfl rfl rfl

/-! ## The loop -/

theorem cloudFinal_sound (segment : TranscriptSegment) :
    Sound first (cloudFinal segment : Worker S Unit) := by
  unfold cloudFinal
  split
  · exact Sound.fail _
  · refine (Sound.read _ _).bind fun committed => ?_
    split
    · exact (commit_sound _ _).bind fun _ => Sound.update fun _ => .own rfl rfl rfl
    · exact Sound.pure ()

theorem readPcm_sound (cursor last : ℕ) :
    Sound first (readPcm cursor last : Worker S (List Sample)) :=
  Sound.atomic fun _ => .own rfl rfl rfl

theorem cloudStop_sound (last : ℕ) : Sound first (cloudStop last : Worker S Control) := by
  refine (Sound.read _ _).bind fun committed => ?_
  split
  · exact (complete_sound last).bind fun _ => Sound.pure _
  · refine Sound.bind (Sound.atomic fun _ => .own rfl rfl rfl) fun settled => ?_
    split
    · exact (demoteLocal_sound _).bind fun _ => Sound.pure _
    · exact Sound.pure _

theorem commitSafe_sound : Sound first (commitSafe : Worker S Unit) := by
  refine (Sound.read _ _).bind fun safe => (Sound.read _ _).bind fun committed => ?_
  split
  · exact commit_sound _ _
  · exact Sound.pure ()

variable (last : ℕ)

theorem localAudio_sound : Sound first (localAudio last : Worker S Unit) := by
  refine (Sound.read _ _).bind fun cursor => ?_
  split
  · exact (readPcm_sound _ _).bind fun pcm =>
      Sound.bind (Sound.atomic fun _ => .own rfl rfl rfl) fun chunks =>
      (Sound.forEach fun chunk _ => infer_sound chunk).bind fun _ => commitSafe_sound
  · exact Sound.pure ()

theorem commitRest_sound : Sound first (commitRest last : Worker S Unit) := by
  refine (Sound.read _ _).bind fun committed => ?_
  split
  · exact commit_sound _ _
  · exact Sound.pure ()

theorem localTail_sound : Sound first (localTail last : Worker S Unit) :=
  Sound.bind (Sound.atomic fun _ => .own rfl rfl rfl) fun _ =>
    (Sound.forEach fun chunk _ => infer_sound chunk).bind fun _ =>
    (commitRest_sound last).bind fun _ => complete_sound last

theorem localPass_sound : Sound first (localPass last : Worker S Control) := by
  refine (localAudio_sound last).bind fun _ => (Sound.read _ _).bind fun closed => ?_
  split
  · refine (Sound.read _ _).bind fun cursor => ?_
    split
    · exact (localTail_sound last).bind fun _ => Sound.pure _
    · exact Sound.pure _
  · exact Sound.pure _

theorem terminal_sound (error : Option SttError) {E : SttError → World S → Prop} :
    Triple (publication S first) (Announced first)
      (Proc.update .gate (World.terminal error) : Worker S Unit) (fun _ => Announced first) E := by
  refine update (announced_stable first) fun w hinv ha _ => ?_
  refine ⟨hinv.terminal error, fun hf => ?_, ?_⟩
  · rw [terminal_frozen hf]
    exact ⟨rfl, rfl⟩
  · unfold Announced
    rw [terminal_journal]
    rcases ha with hfirst | hfenced | hswitched
    · exact .inl hfirst
    · rw [terminal_frozen hfenced]
      exact .inr (.inl hfenced)
    · exact .inr (.inr (hswitched.mono (terminal_grows w error)))

theorem Private.outside (h : Private w v) : Outside w v := .own h.gate h.events h.journal

theorem free_ne_closed (h : event.free = true) : event ≠ .state .closed := by
  rintro rfl
  cases h

theorem free_ne_final (h : event.free = true)
    (segment : TranscriptSegment) : event ≠ .final segment := by
  rintro rfl
  cases h

/-- The loop emits in announced epochs only. -/
def emitting (S : Setup) (first : Option ℕ) : Outline (publication S first) where
  between := Announced first
  online := Announced first
  onDevice := Announced first
  ending _ := Announced first
  ended := Announced first
  failed _ := Announced first
  handed _ := True
  stable := announced_stable first
  online_stable := announced_stable first
  idle _ _ _ _ _ := fun _ => ⟨rfl, rfl⟩
  private_step _ _ _ _ h hinv ha :=
    ⟨h.outside.published hinv, fun _ => ⟨h.gate, h.events⟩, h.outside.announced ha⟩
  staysOnline _ _ ha _ := ha
  goesLocal _ _ ha _ := ha
  online_between _ _ ha := ha
  received _ _ _ _ := trivial
  surfaced _ _ _ _ ha := ha
  unlessFenced := unlessFenced_sound
  readPcm := readPcm_sound
  emit event h := emit_sound event (free_ne_closed h) (free_ne_final h)
  cloudFinal segment _ := cloudFinal_sound segment
  demoteLocal := demoteLocal_sound
  closedTest last := (Sound.read (.closedTest last) _).post
    fun closed _ _ h => by cases closed <;> exact h
  cloudStop last := (cloudStop_sound last).post fun control _ _ h => by cases control <;> exact h
  localPass last := (localPass_sound last).post fun control _ _ h => by cases control <;> exact h

theorem thread_sound : Sound first (thread : Worker S Bool) :=
  ((emitting S first).thread (terminal_sound none)
    (fun error => terminal_sound (some error))).conseq (fun _ _ h => h)
    (fun running _ _ h => by cases running <;> exact h) (fun _ _ _ h => h.elim)

theorem liveThread_sound (load : Except SttError Unit) :
    Sound first (liveThread load : Worker S Bool) := by
  refine (emit_sound (.state .connecting) nofun fun _ h => nomatch h).bind fun _ => ?_
  cases load with
  | error error => exact bind (terminal_sound _) fun _ => Sound.pure _
  | ok =>
    exact (emit_sound (.state StreamState.open) nofun fun _ h => nomatch h).bind fun _ =>
      Sound.pure _

/-! ## Everybody else -/

/-- Somebody else's move. -/
def Moved (w v : World S) : Prop := ∃ move, w.move move = some v

theorem Rely.same (hgate : v.gate = w.gate) (hevents : v.events = w.events)
    (hjournal : v.journal = w.journal) : Rely w v :=
  ⟨hjournal, hevents ▸ prefix_refl _, fun _ => ⟨hgate, hevents⟩⟩

theorem Rely.terminal (w : World S) (error : Option SttError) : Rely w (w.terminal error) :=
  ⟨terminal_journal w error, terminal_grows w error, fun hf => by
    rw [terminal_frozen hf]
    exact ⟨rfl, rfl⟩⟩

theorem Moved.rely (h : Moved w v) : Rely w v := by
  obtain ⟨move, hmove⟩ := h
  obtain ⟨hforeign, -, ⟨error, -, rfl⟩ | ⟨hgate, hevents⟩⟩ := move_effect hmove
  · exact Rely.terminal w _
  · exact Rely.same hgate hevents hforeign.journal

theorem Moved.published (h : Moved w v) (hp : Published first w) : Published first v := by
  obtain ⟨move, hmove⟩ := h
  obtain ⟨hforeign, -, ⟨error, -, rfl⟩ | ⟨hgate, hevents⟩⟩ := move_effect hmove
  · exact hp.terminal _
  · exact hp.congr (congrArg Publication.fenced hgate) hevents (hforeign.journal ▸ prefix_refl _)

/-- Every step of the worker is allowed. -/
def Unrestricted (_ : Label) (_ : World S) : Prop := True

theorem publication_covered (S : Setup) (first : Option ℕ) :
    Covered (publication S first) Moved Unrestricted again
      (fun r w => Published first w ∧ ends (fun _ => Announced first) (fun _ => Announced first)
        r w) where
  env_inv _ _ h := h.published
  env_rely _ _ h _ := h.rely
  allowed_assumed _ _ _ := trivial
  stable r w v hrely hinv h := by
    refine ⟨hinv, ?_⟩
    cases r with
    | ok | error => exact announced_stable first w v hrely h.2
  restart a p w hagain hinv h := by
    cases a with
    | false => cases hagain
    | true =>
      cases hagain
      exact thread_sound w hinv h.2

/-! ## Runs of a source -/

/-- How a source is launched: in the epoch it was created with, or resuming pending audio in a
    new epoch that it announces first. -/
structure Launched (first : Option ℕ) (w : World S) : Prop where
  unfenced : w.gate.fenced = false
  announced : (w.events = [] ∧ first = some w.journal.epoch.number) ∨
    (w.events = [⟨.providerSwitch w.journal.epoch, some w.journal.epoch.number⟩] ∧ first = none)

/-- The threads a source can be launched with. -/
inductive Program : Worker S Bool → Prop
  | thread : Program thread
  | liveThread (load : Except SttError Unit) : Program (liveThread load)

theorem Program.sound (h : Program p) : Sound first p := by
  cases h with
  | thread => exact thread_sound
  | liveThread load => exact liveThread_sound load

theorem Launched.published (h : Launched first w) : Published first w := by
  have hnone : ∀ x ∈ w.events, ∀ event, x.event ≠ .transcript event := by
    rcases h.announced with ⟨hev, -⟩ | ⟨hev, -⟩
    · rw [hev]
      exact fun x hx => nomatch hx
    · rw [hev]
      intro x hx event h
      rw [mem_singleton.mp hx] at h
      cases h
  refine ⟨fun _ x hx => hnone x hx _, fun hf => ?_, fun x hx _ hev => ?_, ?_⟩
  · exact nomatch h.unfenced.symm.trans hf
  · exact (hnone x hx _ hev).elim
  · intro before x after hsplit n event hev _
    exact (hnone x (by rw [hsplit]; simp) event hev).elim

theorem Launched.announces (h : Launched first w) : Announced first w := by
  rcases h.announced with ⟨-, hfirst⟩ | ⟨hev, -⟩
  · exact .inl hfirst
  · refine .inr (.inr ?_)
    rw [hev]
    exact ⟨_, mem_cons_self, w.journal.epoch, rfl, rfl⟩

/-- A run of a source: its thread and everybody else, in any order. -/
def Runs (u v : World S × Worker S Bool) : Prop := Steps Moved Unrestricted again u v

theorem Runs.play {turns : List (Turn Move)} {u : World S × Worker S Bool}
    (h : w.play p turns = some u) : Runs (w, p) u :=
  (Steps.play .refl h).mono (fun _ _ h => h) fun _ _ _ => trivial

/-- On every interleaving: `Closed` is the last event and the only one of its kind, a final is
    in the journal, an epoch's events come after its switch, and a fenced source publishes
    nothing more. -/
theorem publication_ordered {w : World S} {p : Worker S Bool} (hlaunch : Launched first w)
    (hp : Program p) {u : World S × Worker S Bool} (hrun : Runs (w, p) u) :
    (∀ before x after, u.1.events = before ++ x :: after → x.event = closedEvent →
      after = [] ∧ ∀ y ∈ before, y.event ≠ closedEvent) ∧
    (∀ x ∈ u.1.events, ∀ segment, x.event = .transcript (.final segment) →
      ∃ c ∈ u.1.journal.commits, segment ∈ c.segments) ∧
    (∀ before x after, u.1.events = before ++ x :: after → ∀ n event,
      x.event = .transcript event → x.epoch = some n → first ≠ some n →
      SwitchedTo n before) ∧
    (u.1.gate.fenced = true → ∀ v, Runs u v → v.1.gate = u.1.gate ∧ v.1.events = u.1.events) := by
  have hcov := publication_covered S first
  have hinv := hlaunch.published
  have hsafe := hp.sound w hinv hlaunch.announces
  have hpub : Published first u.1 := (Steps.sound hcov hinv hsafe hrun).1
  refine ⟨?_, hpub.finals, ?_, ?_⟩
  · intro before x after hsplit hx
    cases hf : u.1.gate.fenced with
    | false => exact (hpub.unfenced hf x (by rw [hsplit]; simp) hx).elim
    | true =>
      obtain ⟨start, last, hevents, -, hstart⟩ := hpub.fenced hf
      rw [hevents] at hsplit
      rcases concat_eq_append_cons hsplit with ⟨rfl, rfl⟩ | ⟨rest, hold⟩
      · exact ⟨(cons.inj (append_cancel_left hsplit)).2.symm, hstart⟩
      · exact (hstart x (by rw [hold]; simp) hx).elim
  · intro before x after hsplit n event hev hn hfirst
    exact (hpub.ordered before x after hsplit n event hev hn).resolve_left hfirst
  · intro hf v hv
    have hkept : v.1.gate.fenced = true ∧ Frozen u.1 v.1 := by
      refine Steps.preserved (K := fun t => t.gate.fenced = true ∧ Frozen u.1 t) hcov hinv hsafe
        ?_ ?_ hrun hv ⟨hf, rfl, rfl⟩
      · rintro s t hrely ⟨hs, hgate, hevents⟩
        obtain ⟨hgate', hevents'⟩ := hrely.fenced hs
        exact ⟨hgate' ▸ hs, hgate'.trans hgate, hevents'.trans hevents⟩
      · rintro name s t hprom ⟨hs, hgate, hevents⟩
        obtain ⟨hgate', hevents'⟩ := hprom hs
        exact ⟨hgate' ▸ hs, hgate'.trans hgate, hevents'.trans hevents⟩
    exact hkept.2

/-- A cloud source whose provider has confirmed the first two milliseconds. -/
def confirmedSource : World sampleSetup :=
  sampleWorld sampleSetup sampleHeader (List.replicate 64 0)
    (some ⟨[.final sampleSegment], false, true⟩)

/-- A final is committed and published, and the handle is dropped. -/
theorem publication_ordered_dropped : ∃ u, confirmedSource.play thread
        (List.replicate 8 .own ++ [.env (.terminal (failure "source dropped"))]) = some u ∧
      u.1.events.map (·.event) = [.transcript (.final sampleSegment),
        .transcript (.error (failure "source dropped")), closedEvent] ∧
      (∃ c ∈ u.1.journal.commits, sampleSegment ∈ c.segments) ∧
      ∀ v, Runs u v → v.1.events = u.1.events := by
  have hplay : (confirmedSource.play thread
      (replicate 8 .own ++ [.env (.terminal (failure "source dropped"))])).map
        (fun u => (u.1.events.map (·.event), u.1.gate.fenced)) =
      some ([.transcript (.final sampleSegment),
        .transcript (.error (failure "source dropped")), closedEvent], true) := by
    decide +kernel
  obtain ⟨u, hu, hout⟩ := Option.map_eq_some_iff.mp hplay
  obtain ⟨hevents, hfenced⟩ := Prod.mk.inj hout
  have hlaunch : Launched (some 0) confirmedSource := ⟨rfl, .inl ⟨rfl, rfl⟩⟩
  obtain ⟨-, hfinals, -, hfrozen⟩ := publication_ordered hlaunch .thread (Runs.play hu)
  have hmem : .transcript (.final sampleSegment) ∈ u.1.events.map (·.event) := by
    rw [hevents]
    exact mem_cons_self
  obtain ⟨x, hx, hev⟩ := mem_map.mp hmem
  exact ⟨u, hu, hevents, hfinals x hx sampleSegment hev, fun v hv => (hfrozen hfenced v hv).2⟩

end FlyOnTheWall.Stream
