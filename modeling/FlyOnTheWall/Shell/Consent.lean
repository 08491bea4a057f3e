/-
  Consent over whole histories of shell inputs.

  A history is a list of inputs, the latest first, from a shell that is not recording.
  Everything here is read off the inputs and the effects the shell emitted for them:
  whether capture is live, whether the session is still being written, and whether the
  meeting on screen was acknowledged.
-/
import FlyOnTheWall.Shell.State

namespace FlyOnTheWall.Shell

open ShellCore List ShellEffect ShellCore

variable {L : Type}

/-! ## One input -/

/-- Phases in which a session is recorded or written. -/
def Phase.inSession : Phase → Bool
  | .recording _ _ | .finishing _ => true
  | _ => false

theorem isIdle_eq {phase : Phase} (h : phase.isIdle = true) : phase = .idle := by
  cases phase with
  | idle => rfl
  | _ => cases h

variable {s : ShellCore L} {input : ShellInput L}

/-- A session starts from outside one, and only for a Start. -/
theorem nextPhase_starts (hnext : (s.nextPhase input).isRecording = true)
    (hnow : s.phase.isRecording = false) :
    (∃ clock origin, input = .start clock origin) ∧ s.phase.inSession = false := by
  rcases s with ⟨phase, _, _, _, _, _⟩
  cases phase <;> cases input <;> first
    | exact ⟨⟨_, _, rfl⟩, rfl⟩
    | exact Bool.noConfusion (show true = false from hnow)
    | exact Bool.noConfusion (show false = true from hnext)
    | skip
  simp only [nextPhase] at hnext
  split at hnext <;> cases hnext

def Phase.isFinishing : Phase → Bool
  | .finishing _ => true
  | _ => false

theorem nextPhase_isFinishing (s : ShellCore L) (input : ShellInput L) :
    (s.nextPhase input).isFinishing =
      match input with
      | .stopRequested => s.phase.isRecording || s.phase.isFinishing
      | .stopCompleted _ => false
      | .captureFailed _ => false
      | _ => s.phase.isFinishing := by
  rcases s with ⟨phase, _, _, _, _, _⟩
  cases phase <;> cases input <;> first
    | rfl
    | (simp only [nextPhase]; split <;> rfl)

/-- Nothing but the end of a session's display takes the elapsed time back. -/
theorem nextPhase_elapsed (hstay : (s.nextPhase input).isIdle = false)
    (hsame : (s.nextPhase input).isRecording = true → s.phase.isRecording = true) :
    s.phase.elapsed ≤ (s.nextPhase input).elapsed := by
  rcases s with ⟨phase, _, _, _, _, _⟩
  cases phase <;> cases input <;> first
    | exact Nat.le_refl _
    | exact Nat.le_max_left _ _
    | exact Bool.noConfusion (show true = false from hstay)
    | exact Bool.noConfusion (show false = true from hsame rfl)
    | skip
  -- the linger timer of a finished session
  simp only [nextPhase] at hstay ⊢
  split at hstay
  · cases hstay
  · next hlinger =>
    exact Nat.le_of_eq (by rw [if_neg hlinger])

def ShellInput.reportsClosed : ShellInput L → Bool
  | .stopCompleted _ => true
  | _ => false

/-- Only the recorder's report ends a recorded session as finished. -/
theorem nextPhase_finished {e : Duration} {c : Monotonic}
    (hnext : s.nextPhase input = .finished e c) (hnow : s.phase.isRecording = true) :
    input.reportsClosed = true := by
  rcases s with ⟨phase, _, _, _, _, _⟩
  cases phase <;> cases input <;> first
    | rfl
    | exact nomatch (show false = true from hnow)
    | cases hnext

theorem nextPhase_reported (h : input.reportsClosed = true) :
    (s.nextPhase input).isRecording = false := by
  rcases s with ⟨phase, _, _, _, _, _⟩
  cases input with
  | stopCompleted clock => cases phase <;> rfl
  | _ => cases h

structure Coherent (s : ShellCore L) : Prop where
  capture : s.capture = s.phase.isRecording
  ticking : s.ticking = !s.phase.isIdle
  prompt : s.prompt.isSome = true → s.phase = .idle
  acknowledged : s.acknowledged = true → s.prompt.isSome = true

theorem Coherent.withdrawPrompt (h : Coherent s) : Coherent s.withdrawPrompt :=
  ⟨h.capture, h.ticking, nofun, nofun⟩

theorem Coherent.armPrompt (h : Coherent s) (meeting : DetectedMeeting) :
    Coherent (s.armPrompt meeting) := by
  unfold ShellCore.armPrompt
  split
  · next hidle =>
    exact ⟨h.capture, h.ticking, fun _ => isIdle_eq hidle, fun _ => rfl⟩
  · exact h

/-- The meeting is on screen with its box ticked. -/
structure Ticked (meeting : DetectedMeeting) (s : ShellCore L) : Prop where
  shown : s.prompt = some meeting
  box : s.acknowledged = true

variable {meeting : DetectedMeeting}

theorem ticked_of_armPrompt {detected : DetectedMeeting}
    (h : Ticked meeting (s.armPrompt detected)) :
    Ticked meeting s := by
  unfold armPrompt at h
  split at h
  · obtain ⟨hshown, hbox⟩ := h
    cases hshown
    split at hbox
    · cases hbox
    · next hsame =>
      exact ⟨not_not.mp hsame, hbox⟩
  · exact h

theorem capture_notMem_tickEffects (s : ShellCore L) (next : Phase) :
    startCapture ∉ s.tickEffects next ∧
      stopCapture ∉ s.tickEffects next := by
  unfold tickEffects
  split
  · exact ⟨not_mem_nil, not_mem_nil⟩
  · split <;> decide

variable [Zero L]

/-! ## Histories -/

def shellAfter : List (ShellInput L) → ShellCore L
  | [] => .new
  | input :: past => ((shellAfter past).handle input).2

variable (past : List (ShellInput L))

/-- The effects the shell emits for `input` after `past`. -/
def emitted (input : ShellInput L) : List ShellEffect :=
  ((shellAfter past).handle input).1

/-- The inputs that only say what is on screen or what the detector saw. -/
def ShellInput.isDetection : ShellInput L → Bool
  | .meetingDetected _ _ | .detectionCleared | .promptAcknowledged _ => true
  | _ => false

/-- Capture was commanded, and neither a stop was commanded nor a completion reported
    since. -/
def captureLive : List (ShellInput L) → Bool
  | [] => false
  | input :: past =>
    if .startCapture ∈ emitted past input then true
    else if .stopCapture ∈ emitted past input || input.reportsClosed then false
    else captureLive past

theorem captureLive_cons (input : ShellInput L) : captureLive (input :: past) =
      if .startCapture ∈ emitted past input then true
      else if .stopCapture ∈ emitted past input || input.reportsClosed then false
      else captureLive past := rfl

/-- The user stopped the capture, and the session was not reported closed or failed since. -/
def sessionWriting : List (ShellInput L) → Bool
  | [] => false
  | .stopRequested :: past =>
    decide (.stopCapture ∈ emitted past .stopRequested) || sessionWriting past
  | .stopCompleted _ :: _ => false
  | .captureFailed _ :: _ => false
  | _ :: past => sessionWriting past

/-- The box was ticked while `meeting` was on screen, has not been cleared, and `meeting`
    was on screen at every input since. -/
def AcknowledgedFor (meeting : DetectedMeeting) : List (ShellInput L) → Prop
  | [] => False
  | input :: past => (shellAfter past).prompt = some meeting ∧
      (input = .promptAcknowledged true ∨
        (input ≠ .promptAcknowledged false ∧ AcknowledgedFor meeting past))

/-- Somebody asked for this capture: a Start, or a Start answer to a prompt that was on
    screen. -/
def Asked (input : ShellInput L) : Prop :=
  (∃ clock origin, input = .start clock origin) ∨
    ∃ clock acknowledged meeting, input = .promptResponse clock (.start acknowledged) ∧
      (shellAfter past).prompt = some meeting

/-- The meeting on screen, if it needs an acknowledgement, has one: in the answer itself, or
    by the box ticked for that meeting. -/
def Acknowledged (input : ShellInput L) : Prop :=
  ∀ meeting, (shellAfter past).prompt = some meeting → meeting.requiresAcknowledgement = true →
    (∃ clock, input = .promptResponse clock (.start true)) ∨ AcknowledgedFor meeting past

/-- No capture is started by the inputs of `later`, taken after `past`. -/
def StartsNothing (past : List (ShellInput L)) : List (ShellInput L) → Prop
  | [] => True
  | input :: later => ShellEffect.startCapture ∉ emitted (later ++ past) input ∧
      StartsNothing past later

/-! ## The state is coherent -/

theorem coherent_new : Coherent (.new : ShellCore L) := ⟨rfl, rfl, nofun, nofun⟩

theorem Coherent.transition (h : Coherent s) (next : Phase) (origin : Option StartOrigin) :
    Coherent (s.transition next origin).2 := by
  refine ⟨rfl, rfl, ?_, ?_⟩
  · intro hp
    by_cases hidle : next.isIdle = true
    · exact isIdle_eq hidle
    · simp [ShellCore.transition, hidle, ShellCore.withdrawPrompt] at hp
  · by_cases hidle : next.isIdle = true
    · simpa [ShellCore.transition, hidle] using h.acknowledged
    · simp [ShellCore.transition, hidle, ShellCore.withdrawPrompt]

/-! ## Effects -/

variable {next : Phase} {origin : Option StartOrigin}

theorem capture_mem_transition : (startCapture ∈ (s.transition next origin).1 ↔
      next.isRecording = true ∧ s.capture = false) ∧
    (stopCapture ∈ (s.transition next origin).1 ↔
      next.isRecording = false ∧ s.capture = true ∧ ∀ e c, next ≠ .finished e c) := by
  have htick := capture_notMem_tickEffects s next
  simp only [transition, mem_append, htick.1, htick.2, or_false]
  unfold captureEffects
  cases hrec : next.isRecording <;> cases hcap : s.capture <;> cases origin <;>
    cases next <;> simp_all [Phase.isRecording]

/-- The batch that starts a capture: the audit record directly before it, and nothing after
    but the tick edge. -/
theorem transition_audited {origin : StartOrigin} (hnext : next.isRecording = true)
    (hcapture : s.capture = false) :
    (s.transition next (some origin)).1 =
      .auditStart origin :: .startCapture :: s.tickEffects next := by
  simp only [transition, captureEffects, hnext, hcapture]
  rfl

/-- What `handle` does with an input: it leaves the phase alone, or it takes the step of
    `nextPhase` for the input itself, or for the Start that an answered prompt stands for. -/
inductive Handled (s : ShellCore L) (input : ShellInput L) : List ShellEffect × ShellCore L → Prop
  | stays {r : List ShellEffect × ShellCore L} : r.2.phase = s.phase →
      ShellEffect.startCapture ∉ r.1 → ShellEffect.stopCapture ∉ r.1 →
      (∀ clock, input ≠ .stopCompleted clock) → (∀ reason, input ≠ .captureFailed reason) →
      input ≠ .stopRequested → Handled s input r
  | starts {clock : Monotonic} {origin : StartOrigin} : input = .start clock origin →
      s.heldBack = false →
      Handled s input (s.transition (s.nextPhase (.start clock origin)) (some origin))
  | answers {clock : Monotonic} {acknowledged : Bool} {meeting : DetectedMeeting} :
      input = .promptResponse clock (.start acknowledged) → s.prompt = some meeting →
      (meeting.requiresAcknowledgement = true → acknowledged = true ∨ s.acknowledged = true) →
      Handled s input (s.withdrawPrompt.transition
        (s.nextPhase (.start clock .detectionPrompt)) (some .detectionPrompt))
  | moves : (∀ clock origin, input ≠ .start clock origin) →
      (∀ clock choice, input ≠ .promptResponse clock choice) →
      Handled s input (s.transition (s.nextPhase input) none)

theorem answerPrompt_handled (s : ShellCore L) (choice : PromptChoice) (clock : Monotonic) :
    Handled s (.promptResponse clock choice) (s.answerPrompt choice clock) := by
  unfold answerPrompt
  split
  · exact .stays rfl not_mem_nil not_mem_nil nofun nofun nofun
  rename_i meeting hprompt
  split
  · split
    · exact .stays rfl not_mem_nil not_mem_nil nofun nofun nofun
    · next hblocked =>
      refine .answers rfl hprompt (fun hreq => ?_)
      rw [hreq, Bool.true_and, Bool.not_eq_true, Bool.not_eq_false', Bool.or_eq_true] at hblocked
      exact hblocked
  · exact .stays rfl (by simp) (by simp) nofun nofun nofun
  · exact .stays rfl (by simp) (by simp) nofun nofun nofun

theorem handle_handled (s : ShellCore L) (input : ShellInput L) :
    Handled s input (s.handle input) := by
  cases input with
  | level | promptAcknowledged =>
    refine .stays ?_ not_mem_nil not_mem_nil nofun nofun nofun
    show (if _ then _ else _ : ShellCore L).phase = _
    split <;> rfl
  | meetingDetected clock meeting =>
    refine .stays ?_ not_mem_nil not_mem_nil nofun nofun nofun
    show (s.armPrompt meeting).phase = _
    unfold armPrompt
    split <;> rfl
  | detectionCleared => exact .stays rfl not_mem_nil not_mem_nil nofun nofun nofun
  | promptResponse clock choice => exact answerPrompt_handled s choice clock
  | start clock origin =>
    show Handled s _ (if s.heldBack then ([], s) else _)
    split
    · exact .stays rfl not_mem_nil not_mem_nil nofun nofun nofun
    · next hfree =>
      exact .starts rfl (Bool.eq_false_iff.mpr hfree)
  | tick | stopRequested | stopCompleted | captureFailed | dismiss => exact .moves nofun nofun

/-! ## Coherence over histories -/

theorem Coherent.answerPrompt (h : Coherent s) (choice : PromptChoice) (clock : Monotonic) :
    Coherent (s.answerPrompt choice clock).2 := by
  unfold ShellCore.answerPrompt
  split
  · exact h
  · split
    · split
      · exact h
      · exact h.withdrawPrompt.transition _ _
    · exact h.withdrawPrompt
    · exact h.withdrawPrompt

theorem Coherent.handle (h : Coherent s) (input : ShellInput L) : Coherent (s.handle input).2 := by
  cases input with
  | level level =>
    show Coherent (if _ then _ else _)
    split
    · exact { h with }
    · exact h
  | meetingDetected clock meeting => exact h.armPrompt meeting
  | detectionCleared => exact h.withdrawPrompt
  | promptResponse clock choice => exact h.answerPrompt choice clock
  | promptAcknowledged acknowledged =>
    show Coherent (if _ then _ else _)
    split
    · next hp =>
      exact ⟨h.capture, h.ticking, h.prompt, fun _ => hp⟩
    · exact h
  | start clock origin =>
    show Coherent (if s.heldBack then ([], s) else _ : List ShellEffect × ShellCore L).2
    split
    · exact h
    · exact h.transition _ _
  | tick | stopRequested | stopCompleted | captureFailed | dismiss => exact h.transition _ _

theorem coherent_shellAfter : Coherent (shellAfter past) := by
  induction past with
  | nil => exact coherent_new
  | cons input past ih => exact ih.handle input

/-! ## The history's reading of the phase -/

theorem transition_phase (s : ShellCore L) (next : Phase) (origin : Option StartOrigin) :
    (s.transition next origin).2.phase = next := rfl

variable {past : List (ShellInput L)}

/-- A transition commands each edge of the capture, except where the recorder itself reports
    the session closed. -/
theorem captureLive_transition (ih : captureLive past = (shellAfter past).phase.isRecording)
    {asked : ShellCore L} (hasked : asked.capture = (shellAfter past).phase.isRecording)
    (hemit : emitted past input = (asked.transition next origin).1)
    (hreported : input.reportsClosed = true → next.isRecording = false)
    (hfinished : (∃ e c, next = .finished e c) → (shellAfter past).phase.isRecording = true →
      input.reportsClosed = true) : captureLive (input :: past) = next.isRecording := by
  have hstart : startCapture ∈ (asked.transition next origin).1 ↔ _ :=
    capture_mem_transition.1
  have hstop : stopCapture ∈ (asked.transition next origin).1 ↔ _ :=
    capture_mem_transition.2
  rw [← hemit, hasked] at hstart hstop
  rw [captureLive_cons]
  cases hnext : next.isRecording with
  | true =>
    cases hnow : (shellAfter past).phase.isRecording with
    | false => rw [if_pos (hstart.mpr ⟨hnext, hnow⟩)]
    | true =>
      have hopen : input.reportsClosed = false := by
        cases hr : input.reportsClosed with
        | false => rfl
        | true =>
          rw [hreported hr] at hnext
          cases hnext
      simp [hstart, hstop, hnext, hnow, hopen, ih]
  | false =>
    have hno : startCapture ∉ emitted past input := by
      rw [hstart, hnext]
      exact fun h => nomatch h.1
    rw [if_neg hno]
    cases hnow : (shellAfter past).phase.isRecording with
    | false => simp [ih, hnow]
    | true =>
      by_cases hfin : ∃ e c, next = .finished e c
      · simp [hfinished hfin hnow]
      · have hyes := hstop.mpr ⟨hnext, hnow, fun e c h => hfin ⟨e, c, h⟩⟩
        simp [hyes]

/-- One more input of a history. -/
theorem handled_cons (past : List (ShellInput L)) (input : ShellInput L) :
    ∃ r, Handled (shellAfter past) input r ∧ emitted past input = r.1 ∧
      shellAfter (input :: past) = r.2 :=
  ⟨_, handle_handled (shellAfter past) input, rfl, rfl⟩

/-- The phase says whether capture is live and whether the session is being written. -/
theorem reading_eq (past : List (ShellInput L)) :
    captureLive past = (shellAfter past).phase.isRecording ∧
      sessionWriting past = (shellAfter past).phase.isFinishing := by
  induction past with
  | nil => exact ⟨rfl, rfl⟩
  | cons input past ih =>
    obtain ⟨ih, ihw⟩ := ih
    have hcapture := (coherent_shellAfter past).capture
    obtain ⟨r, hhandled, hemit, hafter⟩ := handled_cons past input
    rw [hafter]
    cases hhandled with
    | stays hphase hstart hstop hclosed hfailed hstopped =>
      have hopen : input.reportsClosed = false := by
        cases input with
        | stopCompleted clock => exact (hclosed clock rfl).elim
        | _ => rfl
      rw [hphase, ← ih, ← ihw, captureLive_cons, hemit, if_neg hstart]
      refine ⟨by simp [hstop, hopen], ?_⟩
      cases input with
      | stopRequested => exact (hstopped rfl).elim
      | stopCompleted clock => exact (hclosed clock rfl).elim
      | captureFailed reason => exact (hfailed reason rfl).elim
      | _ => rfl
    | starts hinput _ =>
      subst hinput
      rw [transition_phase, nextPhase_isFinishing]
      exact ⟨captureLive_transition ih hcapture hemit nofun
        (fun ⟨_, _, hfin⟩ hnow => nextPhase_finished hfin hnow), ihw⟩
    | answers hinput _ _ =>
      subst hinput
      rw [transition_phase, nextPhase_isFinishing]
      refine ⟨captureLive_transition ih hcapture hemit nofun ?_, ihw⟩
      rintro ⟨_, _, hfin⟩ hnow
      exact nomatch nextPhase_finished hfin hnow
    | moves hstart hanswer =>
      refine ⟨captureLive_transition ih hcapture hemit nextPhase_reported
        (fun ⟨_, _, hfin⟩ hnow => nextPhase_finished hfin hnow), ?_⟩
      rw [transition_phase, nextPhase_isFinishing]
      cases input with
      | stopRequested =>
        show (decide (stopCapture ∈ emitted past .stopRequested) || _) = _
        cases hphase : (shellAfter past).phase <;>
          simp_all [capture_mem_transition.2, nextPhase, Phase.isRecording, Phase.isFinishing]
      | start clock origin => exact (hstart clock origin rfl).elim
      | promptResponse clock choice => exact (hanswer clock choice rfl).elim
      | stopCompleted | captureFailed => rfl
      | _ => exact ihw

/-! ## The acknowledgement -/

theorem ticked_of_transition (h : Ticked meeting (s.transition next origin).2) :
    Ticked meeting s := by
  obtain ⟨hshown, hbox⟩ := h
  by_cases hidle : next.isIdle = true
  · simp only [transition, hidle, if_true] at hshown hbox
    exact ⟨hshown, hbox⟩
  · simp [transition, hidle, withdrawPrompt] at hshown

theorem ticked_of_answerPrompt {choice : PromptChoice} {clock : Monotonic}
    (h : Ticked meeting (s.answerPrompt choice clock).2) : Ticked meeting s := by
  unfold answerPrompt at h
  split at h
  · exact h
  · split at h
    · split at h
      · exact h
      · exact nomatch (ticked_of_transition h).shown
    · exact nomatch h.shown
    · exact nomatch h.shown

/-- A ticked box was there before the input, for the same meeting, or the input ticks it. -/
theorem ticked_of_handle (h : Ticked meeting (s.handle input).2) :
    (s.prompt = some meeting ∧ input = .promptAcknowledged true) ∨
      (input ≠ .promptAcknowledged false ∧ Ticked meeting s) := by
  cases input with
  | level level =>
    have h' : Ticked meeting (if s.phase.isRecording then { s with level } else s) := h
    split at h'
    · exact .inr ⟨nofun, h'.shown, h'.box⟩
    · exact .inr ⟨nofun, h'⟩
  | meetingDetected clock detected => exact .inr ⟨nofun, ticked_of_armPrompt h⟩
  | detectionCleared => exact nomatch h.shown
  | promptResponse clock choice => exact .inr ⟨nofun, ticked_of_answerPrompt h⟩
  | promptAcknowledged acknowledged =>
    have h' : Ticked meeting (if s.prompt.isSome then { s with acknowledged } else s) := h
    split at h'
    · have hticked : acknowledged = true := h'.box
      exact .inl ⟨h'.shown, by rw [hticked]⟩
    · next hnone =>
      exact (hnone (by rw [h'.shown]; rfl)).elim
  | start clock origin =>
    have h' : Ticked meeting (if s.heldBack then ([], s) else s.transition
        (s.nextPhase (.start clock origin)) (some origin) : List ShellEffect × ShellCore L).2 := h
    split at h'
    · exact .inr ⟨nofun, h'⟩
    · exact .inr ⟨nofun, ticked_of_transition h'⟩
  | tick | stopRequested | stopCompleted | captureFailed | dismiss =>
    exact .inr ⟨nofun, ticked_of_transition h⟩

/-- A ticked box was ticked for the meeting on screen. -/
theorem acknowledgedFor_of_ticked (h : Ticked meeting (shellAfter past)) :
    AcknowledgedFor meeting past := by
  induction past with
  | nil => exact nomatch h.shown
  | cons input past ih =>
    rcases ticked_of_handle h with ⟨hshown, hinput⟩ | ⟨hinput, hticked⟩
    · exact ⟨hshown, .inl hinput⟩
    · exact ⟨hticked.shown, .inr ⟨hinput, ih hticked⟩⟩

/-! ## Starts -/

/-- What the batch that starts a capture looks like, and who asked for it. -/
structure Started (past : List (ShellInput L)) (input : ShellInput L) : Prop where
  asked : Asked past input
  acknowledged : Acknowledged past input
  audited : ∃ origin rest, emitted past input = .auditStart origin :: .startCapture :: rest ∧
    ShellEffect.startCapture ∉ rest
  before : (shellAfter past).phase.inSession = false

theorem started_of_startCapture (h : startCapture ∈ emitted past input) : Started past input := by
  have hcapture := (coherent_shellAfter past).capture
  obtain ⟨r, hhandled, hemit, -⟩ := handled_cons past input
  cases hhandled with
  | stays _ hstart _ _ _ _ =>
    rw [hemit] at h
    exact (hstart h).elim
  | @starts clock origin hinput hfree =>
    subst hinput
    obtain ⟨hnext, hidle⟩ := capture_mem_transition.1.mp (hemit ▸ h)
    refine ⟨.inl ⟨clock, origin, rfl⟩, ?_, ?_, (nextPhase_starts hnext (hcapture ▸ hidle)).2⟩
    · intro meeting hprompt hreq
      have hbox : (shellAfter past).acknowledged = true := by
        simpa [heldBack, hprompt, hreq] using hfree
      exact .inr (acknowledgedFor_of_ticked ⟨hprompt, hbox⟩)
    · exact ⟨origin, _, hemit.trans (transition_audited hnext hidle),
        (capture_notMem_tickEffects _ _).1⟩
  | @answers clock acknowledged meeting hinput hprompt hreq =>
    subst hinput
    obtain ⟨hnext, hidle⟩ := capture_mem_transition.1.mp (hemit ▸ h)
    refine ⟨.inr ⟨clock, acknowledged, meeting, rfl, hprompt⟩, ?_, ?_,
      (nextPhase_starts hnext (hcapture ▸ hidle)).2⟩
    · intro shown hshown hneeds
      rw [hprompt] at hshown
      cases hshown
      rcases hreq hneeds with hanswer | hbox
      · exact .inl ⟨clock, by rw [hanswer]⟩
      · exact .inr (acknowledgedFor_of_ticked ⟨hprompt, hbox⟩)
    · exact ⟨.detectionPrompt, _, hemit.trans (transition_audited hnext hidle),
        (capture_notMem_tickEffects _ _).1⟩
  | moves hstart _ =>
    obtain ⟨hnext, hidle⟩ := capture_mem_transition.1.mp (hemit ▸ h)
    obtain ⟨⟨clock, origin, hinput⟩, -⟩ := nextPhase_starts hnext (hcapture ▸ hidle)
    exact (hstart clock origin hinput).elim

/-! ## The elapsed time -/

theorem elapsed_le_handle (hstart : startCapture ∉ emitted past input)
    (hstay : (shellAfter (input :: past)).phase.isIdle = false) :
    (shellAfter past).phase.elapsed ≤ (shellAfter (input :: past)).phase.elapsed := by
  have hcapture := (coherent_shellAfter past).capture
  obtain ⟨r, hhandled, hemit, hafter⟩ := handled_cons past input
  rw [hafter] at hstay ⊢
  rw [hemit] at hstart
  -- a transition that starts nothing and is recording was recording before
  have hsame : ∀ (asked : ShellCore L) (next : Phase) (origin : Option StartOrigin),
      asked.capture = (shellAfter past).capture →
      startCapture ∉ (asked.transition next origin).1 →
      next.isRecording = true → (shellAfter past).phase.isRecording = true := by
    intro asked next origin hasked hno hnext
    rw [capture_mem_transition.1, hasked, hcapture] at hno
    cases hrec : (shellAfter past).phase.isRecording with
    | true => rfl
    | false => exact (hno ⟨hnext, hrec⟩).elim
  cases hhandled with
  | stays hphase _ _ _ _ _ => exact Nat.le_of_eq (congrArg Phase.elapsed hphase.symm)
  | starts | answers | moves => exact nextPhase_elapsed hstay (hsame _ _ _ rfl hstart)

/-- An idle shell that starts nothing stays idle. -/
theorem isIdle_of_notStart (hstart : startCapture ∉ emitted past input)
    (hidle : (shellAfter past).phase = .idle) : (shellAfter (input :: past)).phase = .idle := by
  have hcapture := (coherent_shellAfter past).capture
  rw [hidle] at hcapture
  obtain ⟨r, hhandled, hemit, hafter⟩ := handled_cons past input
  rw [hafter]
  rw [hemit] at hstart
  cases hhandled with
  | stays hphase _ _ _ _ _ => exact hphase.trans hidle
  | starts | answers =>
    refine (hstart (capture_mem_transition.1.mpr ⟨?_, hcapture⟩)).elim
    simp only [nextPhase, hidle]
    rfl
  | moves hno _ =>
    unfold nextPhase
    rw [hidle]
    cases input with
    | start clock origin => exact (hno clock origin rfl).elim
    | _ => rfl

theorem elapsed_le_of_startsNothing {later : List (ShellInput L)} (hnone : StartsNothing past later)
    (hstay : (shellAfter (later ++ past)).phase ≠ .idle) :
    (shellAfter past).phase.elapsed ≤ (shellAfter (later ++ past)).phase.elapsed := by
  induction later with
  | nil => exact Nat.le_refl _
  | cons input later ih =>
    have hbefore : (shellAfter (later ++ past)).phase ≠ .idle :=
      fun hidle => hstay (isIdle_of_notStart hnone.1 hidle)
    refine Nat.le_trans (ih hnone.2 hbefore) (elapsed_le_handle hnone.1 ?_)
    exact Bool.eq_false_iff.mpr fun hidle => hstay (isIdle_eq hidle)

/-! ## Menu, hotkey and prompt -/

/-- The prompt's Start button takes a click exactly when the click starts a capture. -/
theorem startEnabled_iff (past : List (ShellInput L)) {view : PromptView}
    (hview : (shellAfter past).promptView = some view) (clock : Monotonic) :
    view.startEnabled = true ↔
      startCapture ∈ emitted past (.promptResponse clock (.start false)) := by
  have hcoh := coherent_shellAfter past
  obtain ⟨meeting, hprompt, rfl⟩ := Option.map_eq_some_iff.mp hview
  have hidle := hcoh.prompt (by rw [hprompt]; rfl)
  have hcapture : (shellAfter past).capture = false := by rw [hcoh.capture, hidle]; rfl
  have hnext : (shellAfter past).withdrawPrompt.nextPhase (.start clock .detectionPrompt) =
      .recording clock 0 := by
    simp only [nextPhase, withdrawPrompt, hidle]
  have hemit : emitted past (.promptResponse clock (.start false)) =
      ((shellAfter past).answerPrompt (.start false) clock).1 := rfl
  rw [hemit]
  unfold answerPrompt
  rw [hprompt]
  dsimp only
  split
  · simp_all
  · have hstart : startCapture ∈ ((shellAfter past).withdrawPrompt.transition
        ((shellAfter past).withdrawPrompt.nextPhase (.start clock .detectionPrompt))
        (some .detectionPrompt)).1 := by
      rw [capture_mem_transition.1, hnext]
      exact ⟨rfl, hcapture⟩
    cases hreq : meeting.requiresAcknowledgement <;> simp_all

/-! ## Consent -/

/-- For every history of inputs and every next input. A capture starts only when somebody
    asked, acknowledged where the meeting on screen needs it, with the audit record directly
    before it; detection inputs have no effect at all; between two starts the shell left the
    session; the pill is up while capture is live or the session is being written; and the
    elapsed time never goes back until the shell is idle or a capture starts. -/
theorem capture_needs_consent (past : List (ShellInput L)) (input : ShellInput L) :
    (ShellEffect.startCapture ∈ emitted past input → Asked past input ∧ Acknowledged past input ∧
      ∃ origin rest, emitted past input = .auditStart origin :: .startCapture :: rest ∧
        ShellEffect.startCapture ∉ rest) ∧
    (input.isDetection = true → emitted past input = []) ∧
    (∀ later first, ShellEffect.startCapture ∈ emitted past first →
      ShellEffect.startCapture ∈ emitted (later ++ first :: past) input →
      ∃ mid, mid <:+ later ∧ (shellAfter (mid ++ first :: past)).phase.inSession = false) ∧
    (captureLive past = true ∨ sessionWriting past = true → (shellAfter past).pill.isSome = true) ∧
    (∀ later, StartsNothing past later → (shellAfter (later ++ past)).phase ≠ .idle →
      (shellAfter past).phase.elapsed ≤ (shellAfter (later ++ past)).phase.elapsed) := by
  refine ⟨fun hstart => ?_, fun hdetect => ?_, fun later first _ hagain => ?_, fun hshown => ?_,
    fun later => elapsed_le_of_startsNothing⟩
  · have hstarted := started_of_startCapture hstart
    exact ⟨hstarted.asked, hstarted.acknowledged, hstarted.audited⟩
  · cases input with
    | meetingDetected | detectionCleared | promptAcknowledged => rfl
    | _ => cases hdetect
  · exact ⟨later, suffix_refl _, (started_of_startCapture hagain).before⟩
  · rw [(reading_eq past).1, (reading_eq past).2] at hshown
    have hbusy : (shellAfter past).phase ≠ .idle := by
      intro hidle
      rw [hidle] at hshown
      rcases hshown with h | h <;> cases h
    unfold pill
    cases hphase : (shellAfter past).phase with
    | idle => exact (hbusy hphase).elim
    | _ => rfl

/-- A call in an all-party jurisdiction. -/
def allPartyCall : DetectedMeeting where
  appKey := "us.zoom.xos"
  appName := "Zoom"
  evidence := "Zoom is holding the microphone"
  title := none
  consentNotice := "All parties must agree."
  requiresAcknowledgement := true

/-- The hotkey starts nothing while the box is clear, and starts an audited capture once it
    is ticked for the call on screen. -/
theorem consent_of_all_party_call :
    emitted ([.meetingDetected 0 allPartyCall] : List (ShellInput ℕ)) (.start 1 .hotkey) = [] ∧
      emitted ([.promptAcknowledged true, .meetingDetected 0 allPartyCall] : List (ShellInput ℕ))
        (.start 2 .hotkey) = [.auditStart .hotkey, .startCapture, .startTicking] ∧
      Acknowledged ([.promptAcknowledged true, .meetingDetected 0 allPartyCall] :
        List (ShellInput ℕ)) (.start 2 .hotkey) :=
  ⟨by decide, by decide,
    ((capture_needs_consent [.promptAcknowledged true, .meetingDetected 0 allPartyCall]
      (.start 2 .hotkey)).1 (by decide)).2.1⟩

/-- The box is ticked, so the prompt's Start takes a click. -/
theorem startEnabled_all_party : startCapture ∈ emitted ([.promptAcknowledged true,
    .meetingDetected 0 allPartyCall] : List (ShellInput ℕ)) (.promptResponse 2 (.start false)) :=
  (startEnabled_iff _ rfl 2).mp rfl

end FlyOnTheWall.Shell
