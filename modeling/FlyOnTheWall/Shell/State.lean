/-
  The shell's state machine (`fotw-shell/src/state.rs`).

  `ShellCore` decides what the menu bar and the recording pill show, and which effects the
  host has to carry out. `handle` is the only way its phase moves. The clock is carried by the
  inputs: a reading is a number of nanoseconds since an arbitrary epoch, and `since` saturates.
  Levels are of any type with a silent value.
-/
import Mathlib.Algebra.GroupWithZero.Nat

namespace FlyOnTheWall.Shell

/-! ## Inputs, phases and effects -/

abbrev Duration := ℕ

abbrev Monotonic := ℕ

/-- `Monotonic::since`, saturating at zero. -/
def since (now earlier : Monotonic) : Duration := now - earlier

def nanosPerSec : ℕ := 1000000000

/-- `FINISHED_LINGER`. -/
def finishedLinger : Duration := 4 * nanosPerSec

def twoDigits (n : ℕ) : String := if n < 10 then "0" ++ toString n else toString n

def formatElapsed (elapsed : Duration) : String :=
  let total := elapsed / nanosPerSec
  let hours := total / 3600
  let minutes := total % 3600 / 60
  let seconds := total % 60
  if hours = 0 then twoDigits minutes ++ ":" ++ twoDigits seconds
  else toString hours ++ ":" ++ twoDigits minutes ++ ":" ++ twoDigits seconds

inductive StartOrigin
  | menu
  | hotkey
  | webUi
  | detectionPrompt
  | cli
  deriving DecidableEq, Repr

structure DetectedMeeting where
  appKey : String
  appName : String
  evidence : String
  title : Option String
  consentNotice : String
  requiresAcknowledgement : Bool
  deriving DecidableEq, Repr

def DetectedMeeting.headline (self : DetectedMeeting) : String :=
  match self.title with
  | some title => "Meeting detected — " ++ title ++ " (" ++ self.appName ++ "). Record?"
  | none => self.appName ++ " meeting detected. Record?"

inductive PromptChoice
  | start (acknowledged : Bool)
  | notNow
  | neverForThisApp
  deriving DecidableEq, Repr

inductive Phase
  | idle
  | recording (started : Monotonic) (elapsed : Duration)
  | finishing (elapsed : Duration)
  | finished (elapsed : Duration) (completedAt : Monotonic)
  | faulted (elapsed : Duration) (reason : String)
  deriving DecidableEq, Repr

def Phase.isIdle : Phase → Bool
  | idle => true
  | _ => false

def Phase.isRecording : Phase → Bool
  | recording _ _ => true
  | _ => false

def Phase.elapsed : Phase → Duration
  | idle => 0
  | recording _ elapsed => elapsed
  | finishing elapsed => elapsed
  | finished elapsed _ => elapsed
  | faulted elapsed _ => elapsed

inductive ShellInput (L : Type)
  | start (clock : Monotonic) (origin : StartOrigin)
  | tick (now : Monotonic)
  | level (level : L)
  | stopRequested
  | stopCompleted (clock : Monotonic)
  | captureFailed (reason : String)
  | dismiss
  | meetingDetected (clock : Monotonic) (meeting : DetectedMeeting)
  | detectionCleared
  | promptResponse (clock : Monotonic) (choice : PromptChoice)
  | promptAcknowledged (acknowledged : Bool)
  deriving DecidableEq, Repr

inductive ShellEffect
  | auditStart (origin : StartOrigin)
  | startCapture
  | stopCapture
  | startTicking
  | stopTicking
  | openNotes
  | openDisclosureKit
  | openSettings
  | openAbout
  | quit
  | snoozeDetection
  | suppressApp (appKey : String)
  deriving DecidableEq, Repr

structure ShellCore (L : Type) where
  phase : Phase
  level : L
  prompt : Option DetectedMeeting
  acknowledged : Bool
  capture : Bool
  ticking : Bool
  deriving DecidableEq, Repr

variable {L : Type} [Zero L]

namespace ShellCore

def new : ShellCore L where
  phase := .idle
  level := 0
  prompt := none
  acknowledged := false
  capture := false
  ticking := false

/-! ## Transitions -/

variable (self : ShellCore L)

def withdrawPrompt : ShellCore L :=
  { self with prompt := none, acknowledged := false }

def nextPhase (input : ShellInput L) : Phase :=
  match self.phase, input with
  | .idle, .start clock _ => .recording clock 0
  | .finished _ _, .start clock _ => .recording clock 0
  | .faulted _ _, .start clock _ => .recording clock 0
  | .recording started elapsed, .tick now => .recording started (max elapsed (since now started))
  | .finished elapsed completedAt, .tick now =>
    if finishedLinger ≤ since now completedAt then .idle else .finished elapsed completedAt
  | .recording _ elapsed, .stopRequested => .finishing elapsed
  | .recording _ elapsed, .stopCompleted clock => .finished elapsed clock
  | .finishing elapsed, .stopCompleted clock => .finished elapsed clock
  | .recording _ elapsed, .captureFailed reason => .faulted elapsed reason
  | .finishing elapsed, .captureFailed reason => .faulted elapsed reason
  | .finished _ _, .dismiss => .idle
  | .faulted _ _, .dismiss => .idle
  | phase, _ => phase

variable (next : Phase)

/-- The capture edge of `transition`. -/
def captureEffects (origin : Option StartOrigin) : List ShellEffect :=
  if next.isRecording && !self.capture then
    (origin.map ShellEffect.auditStart).toList ++ [.startCapture]
  else if !next.isRecording && self.capture then
    match next with
    | .finished _ _ => []
    | _ => [.stopCapture]
  else []

/-- The tick edge of `transition`. -/
def tickEffects : List ShellEffect :=
  if (!next.isIdle) = self.ticking then []
  else if next.isIdle then [.stopTicking] else [.startTicking]

def transition (origin : Option StartOrigin) : List ShellEffect × ShellCore L :=
  let asked := if next.isIdle then self else self.withdrawPrompt
  (self.captureEffects next origin ++ self.tickEffects next,
    { phase := next
      level := if next.isRecording then self.level else 0
      prompt := asked.prompt
      acknowledged := asked.acknowledged
      capture := next.isRecording
      ticking := !next.isIdle })

def answerPrompt (choice : PromptChoice) (clock : Monotonic) : List ShellEffect × ShellCore L :=
  match self.prompt with
  | none => ([], self)
  | some meeting =>
    match choice with
    | .start acknowledged =>
      if meeting.requiresAcknowledgement && !(acknowledged || self.acknowledged) then ([], self)
      else
        let self := self.withdrawPrompt
        let origin := StartOrigin.detectionPrompt
        self.transition (self.nextPhase (.start clock origin)) (some origin)
    | .notNow => ([.snoozeDetection], self.withdrawPrompt)
    | .neverForThisApp => ([.suppressApp meeting.appKey], self.withdrawPrompt)

/-- A detection puts its prompt up, only from idle; a different meeting clears the tick. -/
def armPrompt (meeting : DetectedMeeting) : ShellCore L :=
  if self.phase.isIdle then
    { self with
      acknowledged := if self.prompt ≠ some meeting then false else self.acknowledged
      prompt := some meeting }
  else self

/-- A Start that a blocking warning on screen still holds back. -/
def heldBack : Bool :=
  self.prompt.any (fun meeting => meeting.requiresAcknowledgement) && !self.acknowledged

def handle (input : ShellInput L) : List ShellEffect × ShellCore L :=
  match input with
  | .level level => ([], if self.phase.isRecording then { self with level } else self)
  | .meetingDetected _ meeting => ([], self.armPrompt meeting)
  | .detectionCleared => ([], self.withdrawPrompt)
  | .promptResponse clock choice => self.answerPrompt choice clock
  | .promptAcknowledged acknowledged =>
    ([], if self.prompt.isSome then { self with acknowledged } else self)
  | .start clock origin =>
    if self.heldBack then ([], self)
    else self.transition (self.nextPhase (.start clock origin)) (some origin)
  | input => self.transition (self.nextPhase input) none

/-! ## What is shown -/

inductive Tone
  | preparing
  | live
  | finishing
  | saved
  | fault
  deriving DecidableEq, Repr

structure PillView (L : Type) where
  elapsed : Duration
  elapsedLabel : String
  statusLabel : String
  level : L
  levelAvailable : Bool
  detail : String
  tone : Tone
  stopEnabled : Bool
  deriving DecidableEq, Repr

/-- The status word, the tone and whether Stop takes a click; nothing when idle. -/
def pillStatus : Phase → Option (String × Tone × Bool)
  | .idle => none
  | .recording _ _ => some ("Recording", .live, true)
  | .finishing _ => some ("Finishing", .finishing, false)
  | .finished _ _ => some ("Saved", .saved, false)
  | .faulted _ _ => some ("Recording failed", .fault, false)

def pill : Option (PillView L) :=
  (pillStatus self.phase).map fun (statusLabel, tone, stopEnabled) =>
    { elapsed := self.phase.elapsed
      elapsedLabel := formatElapsed self.phase.elapsed
      statusLabel
      level := self.level
      levelAvailable := true
      detail := ""
      tone
      stopEnabled }

structure PromptView where
  appKey : String
  headline : String
  evidence : String
  consentNotice : String
  requiresAcknowledgement : Bool
  acknowledged : Bool
  startEnabled : Bool
  deriving DecidableEq, Repr

def promptView : Option PromptView :=
  self.prompt.map fun meeting =>
    { appKey := meeting.appKey
      headline := meeting.headline
      evidence := meeting.evidence
      consentNotice := meeting.consentNotice
      requiresAcknowledgement := meeting.requiresAcknowledgement
      acknowledged := self.acknowledged
      startEnabled := !meeting.requiresAcknowledgement || self.acknowledged }

end ShellCore

end FlyOnTheWall.Shell
