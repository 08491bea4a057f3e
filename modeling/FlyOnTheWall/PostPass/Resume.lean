/-
  A cleanup job over any history of stops, crashes and resumes.

  `History` is any number of runs of one job, each ended where it returned or cut after any of
  its steps; only a pending job is run again. `resumed_job_agrees`: the version such a history
  stores is the one of an uninterrupted run, no window with a checkpoint is handed to the
  engine again, and until the job completes the transcripts are as they were.
-/
import FlyOnTheWall.PostPass.JobRun
import FlyOnTheWall.Lib.Table
import Mathlib.Tactic.DeriveCountable

namespace FlyOnTheWall.PostPass
open Lib List Option

variable {σ δ : Type} (c : Cleanup σ δ)

def Library.isPending (l : Library) : Bool := l.job.any (·.state == .pending)

/-- Runs of a job, one after the other. `u` is where the last one returned or was cut. -/
inductive History : JobState → JobState → Prop
  | nil (s : JobState) : History s s
  | attempt {s t u : JobState} (io : RunIo) : History s t → t.library.isPending = true →
      u ∈ (runJob c io t).state :: (runJob c io t).trace → History s u

/-- A job that was queued and has not run. -/
def Fresh (s : JobState) : Prop := s.library.isPending = true ∧ s.library.windows = []

/-- What a reader of a version sees. -/
def Transcript.version (t : Transcript) : String × String × List NewSegment :=
  (t.provider, t.model, t.segments)

variable {c} {start l : Library} {job : PostPassJob} {plan : Plan}

theorem Working.isPending (hq : Queued c start job plan) (h : Working c start job plan l) :
    l.isPending = true := by
  obtain ⟨permille, hstored⟩ := h.stored
  rw [Library.isPending, hstored, any_some, beq_iff_eq]
  exact hq.pending

theorem isPending_iff : l.isPending = true ↔ ∃ job, l.job = some job ∧ job.state = .pending := by
  rw [Library.isPending, Option.any_eq_true]
  simp only [beq_iff_eq]

variable {cleaned : Cleaned} {id e : String}

theorem Finished.isPending (h : Finished start id cleaned l) : l.isPending = false := by
  obtain ⟨job, hjob, hdone⟩ := h.done
  rw [← Bool.not_eq_true, isPending_iff]
  rintro ⟨job', hjob', hpending⟩
  rw [hjob] at hjob'
  cases hjob'
  rw [hdone] at hpending
  cases hpending

variable {s t : JobState}

theorem history_done (h : History c s t) (hs : s.library.isPending = false) : t = s := by
  induction h with
  | nil => rfl
  | attempt io _ hpending _ ih =>
    rw [ih, hs] at hpending
    cases hpending

section
variable (hq : Queued c start job plan) (hcodec : c.wordsJson.ReadsBack)
include hq hcodec

/-- The run lemma: every state of a history is at work or has ended. -/
theorem history_stage (h : History c s t) (hs : Working c start job plan s.library) :
    Kept c start job plan s t ∨ Ended c start plan s t := by
  induction h with
  | nil => exact .inl ⟨hs, Follows.refl _⟩
  | attempt io _ hpending hu ih =>
    rcases ih with hkept | ⟨id, cleaned, -, hfinished, -⟩
    · have htask : Prog.Task (Kept c start job plan s) (runJob c io) _ _ _ := runJob_task hq hcodec
      rcases mem_cons.mp hu with rfl | hu
      · exact (htask.post _ hkept).1
      · exact htask.crash _ hkept _ hu
    · rw [hfinished.isPending] at hpending
      cases hpending

/-- An undisturbed run from a library at work stores the straight version, if there is one. -/
theorem Kept.returns (h : Kept c start job plan s t) {io : RunIo} (hclear : Clear start io)
    (hcleaned : straightJob c plan = .ok cleaned) :
    ∃ u, (runJob c io).Returns t (.done io.newId) u ∧
      Finished start io.newId cleaned u.library := by
  obtain ⟨-, hok, hsure⟩ := (runJob_task hq hcodec).post t h
  obtain ⟨r, hr⟩ := hsure ⟨hclear, cleaned, hcleaned⟩
  have hending := hok r hr
  cases r with
  | stopped => exact absurd hclear.1 hending
  | done id =>
    obtain ⟨rfl, a, ha, hfinished⟩ := hending
    cases hcleaned.symm.trans ha
    exact ⟨_, ⟨hr, rfl⟩, hfinished⟩

end

theorem Finished.version_eq (h : Finished start id cleaned l) :
    l.cleaned.map Transcript.version = some (provider, cleaned.model, cleaned.rows) := by
  obtain ⟨primary, hversion⟩ := h.version
  rw [hversion]
  rfl

variable (c)

/-- A state `t` of a history from `s`, against an uninterrupted run from `s`. -/
structure Agrees (s t : JobState) : Prop where
  live : t.library.isPending = true → t.library.transcripts = s.library.transcripts
  stored : t.library.isPending = false → ∃ version,
    t.library.cleaned.map Transcript.version = some version ∧
      ∀ io, Clear s.library io → ∃ u, (runJob c io).Returns s (.done io.newId) u ∧
        u.library.cleaned.map Transcript.version = some version
  resumed : t.library.isPending = true → ∀ io io', Clear s.library io → Clear s.library io' →
    ∀ u, (runJob c io).Returns s (.done io.newId) u → ∃ version u',
      u.library.cleaned.map Transcript.version = some version ∧
        (runJob c io').Returns t (.done io'.newId) u' ∧
          u'.library.cleaned.map Transcript.version = some version
  once : ∀ row ∈ t.library.windows, ∀ u, History c t u →
    ∃ new, u.heard = t.heard ++ new ∧ (row.channel, row.idx) ∉ new

variable {c}

theorem Fresh.queued (hs : Fresh s) : (∃ job plan, Queued c s.library job plan) ∨
      ∃ job e, s.library.job = some job ∧ c.planOf job = .error e := by
  obtain ⟨job, hjob, hpending⟩ := isPending_iff.mp hs.1
  cases hplan : c.planOf job with
  | ok plan => exact .inl ⟨job, plan, hjob, hpending, hplan⟩
  | error e => exact .inr ⟨job, e, hjob, hplan⟩

/-- A job whose plan is not this build's is refused and nothing is changed. -/
theorem runJob_refused (hjob : s.library.job = some job) (hplan : c.planOf job = .error e)
    (io : RunIo) : runJob c io s = ⟨.error e, s, []⟩ := by
  simp [runJob, bind, Prog.bind, Prog.read, okOr, hjob, hplan]

theorem agrees_refused (hs : Fresh s) (hjob : s.library.job = some job)
    (hplan : c.planOf job = .error e) (h : History c s t) : Agrees c s t := by
  have hstay : t = s := by
    induction h with
    | nil => rfl
    | attempt io _ _ hu ih =>
      rw [ih, runJob_refused hjob hplan io] at hu
      exact mem_singleton.mp hu
  subst hstay
  refine ⟨fun _ => rfl, fun hdone => ?_, fun _ io _ _ _ u hu => ?_, fun row hrow => ?_⟩
  · rw [hs.1] at hdone
    cases hdone
  · have hresult := hu.1
    rw [runJob_refused hjob hplan io] at hresult
    cases hresult
  · rw [hs.2] at hrow
    exact absurd hrow not_mem_nil

/-! ## Two short tracks

    One sample on each track, an engine that reports no word times, and the JSON the plan and
    the words really have. -/

deriving instance Countable for TimedWord

noncomputable instance : Encodable TimedWord := Encodable.ofCountable TimedWord

/-- The bytes of an ASCII text. -/
def ascii (text : String) : List UInt8 := text.toList.map fun ch => UInt8.ofNat ch.toNat

def samplePlan : Plan := ⟨2, 30000, 2000, ascii "\"parakeet\"", none⟩

def planText : List UInt8 := ascii (
  "\x7b\"version\":2,\"window_ms\":30000,\"overlap_ms\":2000," ++
  "\"engines\":\"parakeet\",\"bleed\":null\x7d")

def sampleWords : List (List TimedWord × List UInt8) := [
  ([], ascii "[]"),
  ([TimedWord.new "alpha" 28200 28600], ascii "[\x7b\"t\":\"alpha\",\"s\":28200,\"e\":28600\x7d]"),
  ([TimedWord.new "alpha" 1500 1700], ascii "[\x7b\"t\":\"alpha\",\"s\":1500,\"e\":1700\x7d]")]

/-- An engine that spreads words over the window: what it hears depends on the first sample. -/
def sampleEngine : Engine Unit where
  speech pcm := .ok (if pcm.all (· == 0) then [] else [(0, pcm.length)])
  transcribe pcm := .ok (match pcm.head? with
    | some 1 => [TimedWord.guessed "alpha" 28200 28600]
    | some 2 => [TimedWord.guessed "alpha" 1500 1700]
    | _ => [])
  diarize := .ok none
  push session _ := .ok session
  finish _ := .ok []
  provenance := ascii "\"parakeet\""
  bleed := none

def sampleUnicode : Unicode where
  isWhitespace := Char.isWhitespace
  toLowercase s := String.ofList (s.toList.map Char.toLower)

noncomputable def sampleCleanup : Cleanup MemoryTrack Unit where
  source := memorySource
  opens
    | .mic => .ok (some ⟨[1], 1⟩)
    | .system => .ok (some ⟨[2], 1⟩)
  copiedFrames _ _ _ := []
  engine := sampleEngine
  unicode := sampleUnicode
  dedupeCrossLeg segments := (segments, 0)
  planJson := ⟨fun _ => planText, fun bytes => if bytes = planText then some samplePlan else none⟩
  wordsJson := tableCodec sampleWords
  encodeWords _ := ascii "[]"
  provenanceJson _ := ascii "\x7b\x7d"

def sampleJob : PostPassJob :=
  ⟨.pending, 0, planText, 0, some "live", none, none, none⟩

def sampleState : JobState :=
  ⟨⟨some sampleJob, [], [⟨"live", "deepgram", "nova", true, []⟩]⟩, []⟩

def clearIo : RunIo where
  stopsAt _ _ := false
  stopsLabels := false
  stopsChunk _ := false
  failsCheckpoint _ _ := false
  failsProgress _ := false
  failsCompletion := false
  notes := []
  newId := "cleaned"
  now := 1000

/-- A run that is asked to stop before the system track. -/
def stoppedIo : RunIo := { clearIo with stopsAt := fun channel _ => channel == .system }

theorem sampleWords_tabled : Tabled sampleWords :=
  ⟨by decide, by decide, by decide⟩

theorem sampleState_fresh : Fresh sampleState := ⟨by decide, rfl⟩

/-- The microphone's window has been heard, the system track's has not. -/
theorem history_stopped : History sampleCleanup sampleState
    (runJob sampleCleanup stoppedIo sampleState).state :=
  .attempt stoppedIo (.nil _) sampleState_fresh.1 mem_cons_self

theorem stopped_isPending :
    (runJob sampleCleanup stoppedIo sampleState).state.library.isPending = true := by
  decide +kernel

/-! ## Any history -/

theorem resumed_job_agrees (hcodec : c.wordsJson.ReadsBack)
    {s t : JobState} (hs : Fresh s) (h : History c s t) : Agrees c s t := by
  rcases hs.queued (c := c) with ⟨job, plan, hq⟩ | ⟨job, e, hjob, hplan⟩
  swap
  · exact agrees_refused hs hjob hplan h
  have hstart : Working c s.library job plan s.library := by
    refine ⟨⟨job.progressPermille, hq.queued⟩, rfl, fun row hrow => ?_⟩
    rw [hs.2] at hrow
    exact absurd hrow not_mem_nil
  rcases history_stage hq hcodec h hstart with hkept | ⟨id, cleaned, hcleaned, hfinished, -⟩
  · have hpending := hkept.working.isPending hq
    refine ⟨fun _ => hkept.working.transcripts, fun hdone => ?_, fun _ io io' hio hio' u hu => ?_,
      fun row hrow u hhistory => ?_⟩
    · rw [hpending] at hdone
      cases hdone
    · -- a run that completed from the start did so with the straight version
      have htask : Prog.Task (Kept c s.library job plan s) (runJob c io) _ _ _ :=
        runJob_task hq hcodec
      obtain ⟨-, cleaned, hcleaned, hfinished⟩ :=
        (htask.post s ⟨hstart, Follows.refl s⟩).2.1 _ hu.1
      rw [hu.2] at hfinished
      obtain ⟨u', hu', hfinished'⟩ := hkept.returns hq hcodec hio' hcleaned
      exact ⟨_, u', hfinished.version_eq, hu', hfinished'.version_eq⟩
    · rcases history_stage hq hcodec hhistory hkept.working with hlater | ⟨_, _, -, -, hlater⟩
      · obtain ⟨new, hnew, hfresh⟩ := hlater.follows.heard
        exact ⟨new, hnew, hfresh row hrow⟩
      · obtain ⟨new, hnew, hfresh⟩ := hlater
        exact ⟨new, hnew, hfresh row hrow⟩
  · have hdone := hfinished.isPending
    refine ⟨fun hpending => ?_, fun _ => ⟨_, hfinished.version_eq, fun io hio => ?_⟩,
      fun hpending => ?_, fun row hrow u hhistory => ?_⟩
    · rw [hdone] at hpending
      cases hpending
    · obtain ⟨u, hu, hfinished'⟩ :=
        Kept.returns hq hcodec ⟨hstart, Follows.refl s⟩ hio hcleaned
      exact ⟨u, hu, hfinished'.version_eq⟩
    · rw [hdone] at hpending
      cases hpending
    · rw [history_done hhistory hdone]
      exact ⟨[], (append_nil _).symm, not_mem_nil⟩

theorem resumed_job_agrees_twice : Agrees sampleCleanup sampleState (runJob sampleCleanup clearIo
      (runJob sampleCleanup stoppedIo sampleState).state).state :=
  resumed_job_agrees (tableCodec_readsBack sampleWords_tabled) sampleState_fresh
    (.attempt clearIo history_stopped stopped_isPending mem_cons_self)

/-! ## The estimated mark -/

/-- Window `k` places further on, if the track can be read that far. -/
def windowAt (c : Cleanup σ δ) : List (ℕ × ℕ) → ℕ → WindowReader (Track σ) → ℕ → Option PcmWindow
  | [], _, _, _ => none
  | b :: _, index, reader, 0 =>
    (nextWindow c.tracks noSkip index b reader).toOption.map (·.1)
  | b :: rest, index, reader, k + 1 => do
    let next ← (nextWindow c.tracks noSkip index b reader).toOption
    windowAt c rest (index + 1) next.2 k

/-- The recognizer's answer to a window with speech in it. -/
def engineAnswer (c : Cleanup σ δ) (window : PcmWindow) : Option (List TimedWord) := do
  let speech ← (c.engine.speech window.pcm).toOption
  if speech.isEmpty then none
  else (c.engine.transcribe (silenceOutside window.pcm speech)).toOption

/-- The recognizer's answer to window `k` of a channel. -/
def EngineAnswers (c : Cleanup σ δ) (plan : Plan) (channel : Channel) (k : ℕ)
    (answer : List TimedWord) : Prop :=
  ∃ track window, openTrack c plan channel = .ok (some track) ∧
    windowAt c (bounds c plan track) 0 (WindowReader.new track) k = some window ∧
      engineAnswer c window = some answer

/-- Whether times of a window were estimated. -/
def marked (words : List TimedWord) : Bool := words.any (·.estimated)

/-- The mark as the library has it for a checkpoint. -/
def storedMark (c : Cleanup σ δ) (row : WindowRow) : Option Bool :=
  (c.wordsJson.fromSlice row.wordsJson).map marked

variable {window : PcmWindow} {words : List TimedWord}

/-- The job rebuilds the words of an answer, and the rebuilt words carry no mark. -/
theorem marked_windowWords (h : windowWords c window = .ok words) : marked words = false := by
  obtain ⟨speech, -, h⟩ := bind_eq_ok.mp h
  split at h
  · cases h
    rfl
  · obtain ⟨answer, -, h⟩ := bind_eq_ok.mp h
    cases h
    rw [marked, List.any_map, List.any_eq_false]
    exact fun w _ => by simp [TimedWord.new]

variable {bs : List (ℕ × ℕ)} {index k : ℕ} {reader : WindowReader (Track σ)}

theorem marked_answerAt (h : answerAt c bs index reader k = some words) : marked words = false := by
  induction bs generalizing index reader k with
  | nil => cases h
  | cons b rest ih =>
    cases k with
    | zero =>
      obtain ⟨next, -, hwords⟩ := (answerAt_zero c).mp h
      exact marked_windowWords hwords
    | succ k =>
      obtain ⟨next, -, h⟩ := bind_eq_some_iff.mp h
      exact ih h

/-- The straight run has a window's words at the window's place. -/
theorem straightWindows_at {windows : List WindowWords}
    (h : straightWindows c bs index reader = .ok windows)
    (hwindow : windowAt c bs index reader k = some window) :
    ∃ w, windows[k]? = some w ∧ windowWords c window = .ok w.words := by
  induction bs generalizing index reader k windows with
  | nil => cases hwindow
  | cons b rest ih =>
    obtain ⟨next, hnext, h⟩ := bind_eq_ok.mp h
    obtain ⟨words, hwords, h⟩ := bind_eq_ok.mp h
    obtain ⟨others, hothers, h⟩ := bind_eq_ok.mp h
    cases h
    cases k with
    | zero =>
      rw [windowAt, hnext] at hwindow
      cases hwindow
      exact ⟨_, rfl, hwords⟩
    | succ k =>
      rw [windowAt, hnext] at hwindow
      rw [getElem?_cons_succ]
      exact ih hothers hwindow

variable {tracks : List (Channel × Track σ)} {channel : Channel} {track : Track σ}

theorem straightTracks_mem {heard : Heard} (h : straightTracks c plan tracks = .ok heard)
    (hmem : (channel, track) ∈ tracks) :
    ∃ windows, (channel, windows) ∈ heard ∧
      straightWindows c (bounds c plan track) 0 (WindowReader.new track) = .ok windows := by
  induction tracks generalizing heard with
  | nil => exact absurd hmem not_mem_nil
  | cons t rest ih =>
    obtain ⟨windows, hwindows, h⟩ := bind_eq_ok.mp h
    obtain ⟨others, hothers, h⟩ := bind_eq_ok.mp h
    cases h
    rcases mem_cons.mp hmem with rfl | hmem
    · exact ⟨windows, mem_cons_self, hwindows⟩
    · obtain ⟨found, hfound, hstraight⟩ := ih hothers hmem
      exact ⟨found, mem_cons_of_mem _ hfound, hstraight⟩

theorem openTracks_has {channels : List Channel} (h : openTracks c plan channels = .ok tracks)
    (hmem : channel ∈ channels) (htrack : openTrack c plan channel = .ok (some track)) :
    (channel, track) ∈ tracks := by
  induction channels generalizing tracks with
  | nil => exact absurd hmem not_mem_nil
  | cons first rest ih =>
    obtain ⟨opened, hopened, h⟩ := bind_eq_ok.mp h
    obtain ⟨others, hothers, h⟩ := bind_eq_ok.mp h
    cases h
    rcases mem_cons.mp hmem with rfl | hmem
    · cases htrack.symm.trans hopened
      exact mem_append_left _ (mem_singleton.mpr rfl)
    · exact mem_append_right _ (ih hothers hmem)

/-- A checkpoint, and what the merge is given for a window in any run of a resumed job, carry
    the mark of the engine's answer if and only if that answer has none. -/
theorem estimated_mark_survives_iff (hcodec : c.wordsJson.ReadsBack)
    {s t : JobState} (hs : Fresh s) (h : History c s t) (hjob : s.library.job = some job)
    (hplan : c.planOf job = .ok plan) {channel : Channel} {k : ℕ} {answer : List TimedWord}
    (hanswer : EngineAnswers c plan channel k answer) :
    (∀ row ∈ t.library.windows, row.channel = channel → row.idx = k →
      (storedMark c row = some (marked answer) ↔ marked answer = false)) ∧
    ∀ io tracks progress heard u, t.library.isPending = true →
      openTracks c plan [.mic, .system] = .ok tracks →
      (hearTracks c io plan tracks progress).Returns t (some heard) u →
      ∃ windows window, (channel, windows) ∈ heard.1 ∧ windows[k]? = some window ∧
        (marked window.words = marked answer ↔ marked answer = false) := by
  obtain ⟨job', hjob', hpending⟩ := isPending_iff.mp hs.1
  cases hjob.symm.trans hjob'
  have hq : Queued c s.library job plan := ⟨hjob, hpending, hplan⟩
  have hstart : Working c s.library job plan s.library := by
    refine ⟨⟨job.progressPermille, hjob⟩, rfl, fun row hrow => ?_⟩
    rw [hs.2] at hrow
    exact absurd hrow not_mem_nil
  have hflag : ∀ mark : Bool, (false = mark ↔ mark = false) := fun _ => eq_comm
  rcases history_stage hq hcodec h hstart with hkept | ⟨id, cleaned, -, hfinished, -⟩
  · refine ⟨fun row hrow _ _ => ?_, fun io tracks progress heard u _ htracks hrun => ?_⟩
    · obtain ⟨words, hjson, track, -, hwords⟩ := hkept.working.answered row hrow
      rw [storedMark, hjson, hcodec, map_some, marked_answerAt hwords, some.injEq]
      exact hflag _
    · obtain ⟨track, window, htrack, hwindow, -⟩ := hanswer
      have htask : Prog.Task (Kept c s.library job plan s) (hearTracks c io plan tracks progress)
          _ _ _ := hearTracks_task hq hcodec tracks progress (openTracks_mem htracks)
      have hstraight := (htask.post t hkept).2.1 _ hrun.1
      have hmem : (channel, track) ∈ tracks :=
        openTracks_has htracks (by cases channel <;> simp) htrack
      obtain ⟨windows, hwindows, hstraight⟩ := straightTracks_mem hstraight hmem
      obtain ⟨w, hw, hwords⟩ := straightWindows_at hstraight hwindow
      refine ⟨windows, w, hwindows, hw, ?_⟩
      rw [marked_windowWords hwords]
      exact hflag _
  · refine ⟨fun row hrow => ?_, fun io tracks progress heard u hpending' => ?_⟩
    · rw [hfinished.windows] at hrow
      exact absurd hrow not_mem_nil
    · rw [hfinished.isPending] at hpending'
      cases hpending'

theorem sample_answer :
    EngineAnswers sampleCleanup samplePlan .mic 0 [TimedWord.guessed "alpha" 28200 28600] :=
  ⟨.plain ⟨[1], 1⟩, ⟨0, 0, [1]⟩, rfl, by decide +kernel, by decide⟩

theorem estimated_mark_survives_iff_stopped :
    EngineAnswers sampleCleanup samplePlan .mic 0 [TimedWord.guessed "alpha" 28200 28600] ∧
    ∀ row ∈ (runJob sampleCleanup stoppedIo sampleState).state.library.windows,
      row.channel = .mic → row.idx = 0 →
      (storedMark sampleCleanup row = some (marked [TimedWord.guessed "alpha" 28200 28600]) ↔
        marked [TimedWord.guessed "alpha" 28200 28600] = false) :=
  ⟨sample_answer, (estimated_mark_survives_iff (tableCodec_readsBack sampleWords_tabled)
    sampleState_fresh history_stopped rfl (by decide) sample_answer).1⟩

/-- The engine marked its word, the checkpoint has no mark, and the word that both windows
    heard in their overlap is in the merged text twice. -/
theorem estimated_mark_lost :
    EngineAnswers sampleCleanup samplePlan .mic 0 [TimedWord.guessed "alpha" 28200 28600] ∧
    ((runJob sampleCleanup stoppedIo sampleState).state.library.windows.map
      (storedMark sampleCleanup)) = [some false] ∧
    (windowWords sampleCleanup ⟨0, 0, [1]⟩).toOption = some [TimedWord.new "alpha" 28200 28600] ∧
    (windowWords sampleCleanup ⟨1, 448000, [2]⟩).toOption =
      some [TimedWord.new "alpha" 29500 29700] ∧
    mergeWindows sampleUnicode [⟨0, 30000, [TimedWord.new "alpha" 28200 28600]⟩,
        ⟨28000, 58000, [TimedWord.new "alpha" 29500 29700]⟩] =
      [TimedWord.new "alpha" 28200 28600, TimedWord.new "alpha" 29500 29700] ∧
    mergeWindows sampleUnicode [⟨0, 30000, [TimedWord.guessed "alpha" 28200 28600]⟩,
        ⟨28000, 58000, [TimedWord.guessed "alpha" 29500 29700]⟩] =
      [TimedWord.guessed "alpha" 28200 28600] :=
  ⟨sample_answer, by decide +kernel, by decide, by decide, by decide,
    by decide⟩

end FlyOnTheWall.PostPass
