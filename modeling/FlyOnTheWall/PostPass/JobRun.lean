/-
  What a cleanup job stores, however often it is stopped, cut off and resumed.

  * `straightJob`: the cleaned version as a function of the audio and the engine alone.
  * `Working`: the library between the queueing of a job and its completion: every checkpoint
    holds the words the straight run has for that window, and the transcripts are as they were.
  * `runJob_spec`: a run from such a library keeps it such after every step, hands no window
    with a checkpoint to the engine, and when it completes stores what `straightJob` gives.
-/
import FlyOnTheWall.PostPass.Job

namespace FlyOnTheWall.PostPass
open Lib List Option

variable {σ δ : Type} (c : Cleanup σ δ) {next : PcmWindow × WindowReader (Track σ)}

/-! ## The straight run -/

/-- Every window of a track with its words. -/
def straightWindows : List (ℕ × ℕ) → ℕ → WindowReader (Track σ) → Except String (List WindowWords)
  | [], _, _ => .ok []
  | b :: rest, index, reader => do
    let next ← nextWindow c.tracks noSkip index b reader
    let words ← windowWords c next.1
    let others ← straightWindows rest (index + 1) next.2
    .ok (⟨millis b.1, millis b.2, words⟩ :: others)

def straightTracks (plan : Plan) : List (Channel × Track σ) → Except String Heard
  | [] => .ok []
  | (channel, track) :: rest => do
    let windows ← straightWindows c (bounds c plan track) 0 (WindowReader.new track)
    let others ← straightTracks plan rest
    .ok ((channel, windows) :: others)

def straightSpans (track : Track σ) (session : δ) : Except String Diarized :=
  match _hread : c.tracks.read track diarizeChunk with
  | .error e => .error e
  | .ok ([], _) => .ok (finishSession c session)
  | .ok (x :: more, track) =>
    match c.engine.push session (x :: more) with
    | .error e => .ok (unavailable e)
    | .ok session => straightSpans track session
termination_by c.tracks.left track
decreasing_by
  have hleft := c.tracks.read_left _hread
  simp only [List.length_cons] at hleft
  omega

def straightDiarize (plan : Plan) : Except String Diarized :=
  match c.engine.diarize with
  | .error e => .ok (unavailable e)
  | .ok none => .ok noDiarizer
  | .ok (some session) => do
    let track ← openTrack c plan .system
    match track with
    | none => .ok (.spans [])
    | some track => straightSpans c track session

/-- The speakers without the notes. -/
def Diarized.speakers : Diarized → Option (List SpeakerSpan)
  | .spans found => some (joinSpans found)
  | .unavailable _ => none
  | .stopped => none

def straightLabels (plan : Plan) (heard : Heard) : Except String (Option (List SpeakerSpan)) :=
  if heard.hasSystem then do
    let diarized ← straightDiarize c plan
    .ok diarized.speakers
  else .ok none

/-- The cleaned version, from the audio and the engine alone. -/
def straightJob (plan : Plan) : Except String Cleaned := do
  let tracks ← openTracks c plan [.mic, .system]
  let heard ← straightTracks c plan tracks
  let speakers ← straightLabels c plan heard
  .ok (assemble c heard speakers)

/-- The words of the window `k` places further on, if the track can be read that far and the
    engine hears that window. -/
def answerAt : List (ℕ × ℕ) → ℕ → WindowReader (Track σ) → ℕ → Option (List TimedWord)
  | [], _, _, _ => none
  | b :: _, index, reader, 0 => do
    let next ← (nextWindow c.tracks noSkip index b reader).toOption
    (windowWords c next.1).toOption
  | b :: rest, index, reader, k + 1 => do
    let next ← (nextWindow c.tracks noSkip index b reader).toOption
    answerAt rest (index + 1) next.2 k

variable {index : ℕ} {b : ℕ × ℕ} {rest : List (ℕ × ℕ)} {reader : WindowReader (Track σ)}

theorem answerAt_zero {words : List TimedWord} :
    answerAt c (b :: rest) index reader 0 = some words ↔
      ∃ next, nextWindow c.tracks noSkip index b reader = .ok next ∧
        windowWords c next.1 = .ok words := by
  show (Option.bind _ _) = some words ↔ _
  rw [bind_eq_some_iff]
  simp only [toOption_eq_some]

theorem answerAt_succ {k : ℕ} (hnext : nextWindow c.tracks noSkip index b reader = .ok next) :
    answerAt c (b :: rest) index reader (k + 1) = answerAt c rest (index + 1) next.2 k := by
  rw [answerAt, hnext]
  rfl

/-- The words the straight run has for a window of a channel. -/
def Answers (plan : Plan) (channel : Channel) (idx : ℕ) (words : List TimedWord) : Prop :=
  ∃ track, openTrack c plan channel = .ok (some track) ∧
    answerAt c (bounds c plan track) 0 (WindowReader.new track) idx = some words

/-! ## The library while a job works -/

variable (start : Library)

variable (job : PostPassJob)

/-- A pending job with its plan, and the library it was queued in. -/
structure Queued (plan : Plan) : Prop where
  queued : start.job = some job
  pending : job.state = .pending
  planned : c.planOf job = .ok plan

/-- Nothing but progress and correct checkpoints has been added since the job was queued. -/
structure Working (plan : Plan) (l : Library) : Prop where
  stored : ∃ permille, l.job = some { job with progressPermille := permille }
  transcripts : l.transcripts = start.transcripts
  answered : ∀ row ∈ l.windows, ∃ words, row.wordsJson = c.wordsJson.toVec words ∧
    Answers c plan row.channel row.idx words

/-- The windows handed to the engine between two states: none that had a checkpoint. -/
def Spared (s t : JobState) : Prop :=
  ∃ new, t.heard = s.heard ++ new ∧ ∀ row ∈ s.library.windows, (row.channel, row.idx) ∉ new

/-- A later state of a job that is still at work. -/
structure Follows (s t : JobState) : Prop where
  windows : ∀ row ∈ s.library.windows, row ∈ t.library.windows
  heard : Spared s t

theorem Follows.refl (s : JobState) : Follows s s :=
  ⟨fun _ h => h, [], (append_nil _).symm, fun _ _ => not_mem_nil⟩

variable {s t : JobState} {l' : Library}

theorem Follows.spared {u : JobState} (h : Follows s t) (h' : Spared t u) : Spared s u := by
  obtain ⟨new, hnew, hfresh⟩ := h.heard
  obtain ⟨new', hnew', hfresh'⟩ := h'
  refine ⟨new ++ new', ?_, ?_⟩
  · rw [hnew', hnew, append_assoc]
  · intro row hrow hmem
    rcases mem_append.mp hmem with hmem | hmem
    · exact hfresh row hrow hmem
    · exact hfresh' row (h.windows row hrow) hmem

/-- A change of the library that keeps the checkpoints. -/
theorem Follows.library (h : Follows s t) {l : Library}
    (hl : ∀ row ∈ t.library.windows, row ∈ l.windows) : Follows s { t with library := l } :=
  ⟨fun row hrow => hl row (h.windows row hrow), h.heard⟩

/-- A window without a checkpoint is handed to the engine. -/
theorem Follows.hear (h : Follows s t) {channel : Channel}
    (hfree : ∀ row ∈ t.library.windows, (row.channel, row.idx) ≠ (channel, index)) :
    Follows s { t with heard := t.heard ++ [(channel, index)] } := by
  refine ⟨h.windows, h.spared ⟨[(channel, index)], rfl, fun row hrow hmem => ?_⟩⟩
  exact hfree row hrow (mem_singleton.mp hmem)

section Library
variable {c} {start l : Library} {job : PostPassJob} {plan : Plan}

section
variable (hq : Queued c start job plan) (h : Working c start job plan l)
include hq h

theorem Working.pendingJob :
    ∃ permille, l.pendingJob = .ok { job with progressPermille := permille } := by
  obtain ⟨permille, hjob⟩ := h.stored
  refine ⟨permille, ?_⟩
  rw [Library.pendingJob, hjob, okOr_eq_ok, filter_eq_some_iff]
  exact ⟨rfl, by simp [hq.pending]⟩

variable {channel : Channel} {idx : ℕ}

theorem Working.checkpoint_ok {words : List TimedWord} {permille : ℕ}
    (hanswer : Answers c plan channel idx words)
    (hl : l.checkpoint channel idx (c.wordsJson.toVec words) permille = .ok l') :
    Working c start job plan l' ∧
      l'.windows = l.windows ++ [⟨channel, idx, c.wordsJson.toVec words⟩] := by
  obtain ⟨current, hpending, hl⟩ := bind_eq_ok.mp hl
  obtain ⟨-, -, hl⟩ := bind_eq_ok.mp hl
  obtain ⟨before, hbefore⟩ := h.pendingJob hq
  cases hbefore.symm.trans hpending
  cases hl
  refine ⟨⟨⟨_, rfl⟩, h.transcripts, fun row hrow => ?_⟩, rfl⟩
  rcases mem_append.mp hrow with hrow | hrow
  · exact h.answered row hrow
  · rw [mem_singleton.mp hrow]
    exact ⟨words, rfl, hanswer⟩

/-- A checkpoint of a window that has none is stored. -/
theorem Working.checkpoint_some (json : List UInt8) (permille : ℕ)
    (hfree : ∀ row ∈ l.windows, (row.channel, row.idx) ≠ (channel, idx)) :
    ∃ l', l.checkpoint channel idx json permille = .ok l' := by
  obtain ⟨before, hbefore⟩ := h.pendingJob hq
  have hunique : (l.windows.any fun w => w.channel == channel && w.idx == idx) = false := by
    rw [List.any_eq_false]
    intro row hrow hsame
    have hsame : row.channel = channel ∧ row.idx = idx := by simpa using hsame
    exact hfree row hrow (by rw [hsame.1, hsame.2])
  refine ⟨_, bind_eq_ok.mpr ⟨_, hbefore, bind_eq_ok.mpr ⟨(), ?_, rfl⟩⟩⟩
  rw [hunique]
  exact refuseIf_false _

theorem Working.progress (permille : ℕ) :
    Working c start job plan (l.progress permille) ∧ (l.progress permille).windows = l.windows := by
  obtain ⟨before, hbefore⟩ := h.pendingJob hq
  unfold Library.progress
  rw [hbefore]
  exact ⟨⟨⟨_, rfl⟩, h.transcripts, h.answered⟩, rfl⟩

end

end Library

/-! ## Hearing the windows -/

/-- Nothing stops the run and no transaction that matters fails. -/
structure Undisturbed (io : RunIo) : Prop where
  windows : ∀ channel index, io.stopsAt channel index = false
  labels : io.stopsLabels = false
  chunks : ∀ chunk, io.stopsChunk chunk = false
  checkpoints : ∀ channel index, io.failsCheckpoint channel index = false
  completion : io.failsCompletion = false

/-- A state on the way from `s₀`. -/
structure Kept (plan : Plan) (s₀ s : JobState) : Prop where
  working : Working c start job plan s.library
  follows : Follows s₀ s

/-- The run knows of every checkpoint of the channel. -/
structure Hearing (plan : Plan) (s₀ : JobState)
    (channel : Channel) (saved : Saved) (s : JobState) : Prop where
  kept : Kept c start job plan s₀ s
  known : ∀ row ∈ s.library.windows, row.channel = channel → (saved.lookup row.idx).isSome

/-- A window was already there, or was heard and added. -/
def Added (window : PcmWindow) (saved saved' : Saved) : Prop :=
  ((saved.lookup window.index).isSome ∧ saved' = saved) ∨
    ∃ words, saved.lookup window.index = none ∧ windowWords c window = .ok words ∧
      saved' = saved ++ [(window.index, words)]

/-- A part of the run that, unless it is stopped, comes to what the straight run has. -/
abbrev Retraces (io : RunIo) (start : Library) (job : PostPassJob) (plan : Plan) (s₀ : JobState)
    {α β : Type} (p : Prog JobState String (Option (α × β))) (straight : Except String α) : Prop :=
  Prog.Task (Kept c start job plan s₀) p (Kept c start job plan s₀)
    (fun r _ => match r with
      | none => ¬ Undisturbed io
      | some x => straight = .ok x.1)
    (Undisturbed io ∧ ∃ a, straight = .ok a)

section Hear
variable {c} {io : RunIo} {start : Library} {job : PostPassJob} {plan : Plan} {s₀ : JobState}
  {channel : Channel} {saved : Saved}

open Prog.Task

theorem commit_task {fails : Bool} {f : Library → Except String Library} {P A B : JobState → Prop}
    {sure : Prop} (hA : ∀ s, P s → A s)
    (hok : ∀ s l, P s → f s.library = .ok l → A { s with library := l } ∧ B { s with library := l })
    (hsure : sure → fails = false ∧ ∀ s, P s → ∃ l, f s.library = .ok l) :
    Prog.Task P (commit fails f) A (fun _ => B) sure := by
  refine bind (B := fun l s => P s ∧ f s.library = .ok l)
    (read hA (fun s l hs hl => ?_) fun hs' s hs => ?_)
    (fun l => step fun s hs => hok s l hs.1.1 hs.1.2) (fun hs => hs)
    (fun _ _ hs _ => hs)
  · obtain ⟨-, -, hl⟩ := bind_eq_ok.mp hl
    exact ⟨hs, hl⟩
  · obtain ⟨hfails, hsome⟩ := hsure hs'
    obtain ⟨l, hl⟩ := hsome s hs
    refine ⟨l, bind_eq_ok.mpr ⟨(), ?_, hl⟩⟩
    rw [hfails]
    exact refuseIf_false _

theorem Hearing.free (h : Hearing c start job plan s₀ channel saved s)
    (hnone : saved.lookup index = none) :
    ∀ row ∈ s.library.windows, (row.channel, row.idx) ≠ (channel, index) := by
  intro row hrow hsame
  obtain ⟨hchannel, hidx⟩ := Prod.mk.inj hsame
  have hknown := h.known row hrow hchannel
  rw [hidx, hnone] at hknown
  exact absurd hknown (by simp)

variable {words : List TimedWord}

theorem lookup_append_self (hnone : saved.lookup index = none) :
    (saved ++ [(index, words)]).lookup index = some words := by
  rw [lookup_append, hnone, none_or, lookup_cons_self]

theorem lookup_append_of_some {j : ℕ} {found : List TimedWord}
    (hsome : saved.lookup j = some found) : (saved ++ [(index, words)]).lookup j = some found := by
  rw [lookup_append, hsome, some_or]

theorem hearWindow_task (hq : Queued c start job plan) (window : PcmWindow) (progress : Progress)
    (hanswer : ∀ words, saved.lookup window.index = none → windowWords c window = .ok words →
      Answers c plan channel window.index words) :
    Prog.Task (Hearing c start job plan s₀ channel saved)
      (hearWindow c io channel window saved progress) (Kept c start job plan s₀)
      (fun r s => match r with
        | none => ¬ Undisturbed io
        | some x => Hearing c start job plan s₀ channel x.1 s ∧ Added c window saved x.1)
      (Undisturbed io ∧
        (saved.lookup window.index = none → ∃ words, windowWords c window = .ok words)) := by
  unfold hearWindow
  split
  · next hsome =>
    exact pure fun s hs => ⟨hs.kept, hs, .inl ⟨hsome, rfl⟩⟩
  rename_i hsome
  have hnone : saved.lookup window.index = none :=
    not_isSome_iff_eq_none.mp hsome
  split
  · next hstop =>
    refine pure fun s hs => ⟨hs.kept, fun hu => ?_⟩
    rw [hu.windows] at hstop
    cases hstop
  refine bind (B := fun _ s => Hearing c start job plan s₀ channel saved s)
    (step fun s hs => ?_) (fun _ => ?_) (fun _ => trivial) (fun _ _ hs _ => hs)
  · have hkept : Kept c start job plan s₀
        { s with heard := s.heard ++ [(channel, window.index)] } :=
      ⟨hs.kept.working, hs.kept.follows.hear (hs.free hnone)⟩
    exact ⟨hkept, hkept, hs.known⟩
  refine check (fun s hs => hs.2) (fun hs => hs.2 hnone) fun words hwords => ?_
  refine bind
    (commit_task (fun s hs => hs.2) (fun s l hs hl => ?_) fun hu => ⟨hu.checkpoints _ _, ?_⟩)
    (fun _ => pure fun s hs => ⟨hs.2, hs.1, .inr ⟨words, hnone, hwords, rfl⟩⟩)
    (fun hs => hs.1) (fun _ _ _ _ => trivial)
  · obtain ⟨hworking, hwindows⟩ := hs.2.working.checkpoint_ok hq (hanswer words hnone hwords) hl
    have hkept : Kept c start job plan s₀ { s with library := l } :=
      ⟨hworking, hs.2.follows.library fun row hrow => by
        rw [hwindows]
        exact mem_append_left _ hrow⟩
    refine ⟨hkept, hkept, fun row hrow hchannel => ?_⟩
    rw [hwindows] at hrow
    rcases mem_append.mp hrow with hrow | hrow
    · obtain ⟨found, hfound⟩ := isSome_iff_exists.mp (hs.1.known row hrow hchannel)
      rw [lookup_append_of_some hfound]
      rfl
    · rw [mem_singleton.mp hrow, lookup_append_self hnone]
      rfl
  · intro s hs
    exact hs.2.working.checkpoint_some hq _ _ (hs.1.free hnone)

/-- What is saved after a window: its words, and the words of no other window. -/
theorem Added.lookups {window : PcmWindow} {saved' : Saved} (h : Added c window saved saved') :
    (∀ j words, saved.lookup j = some words → saved'.lookup j = some words) ∧
      ∀ j words, j ≠ window.index → saved'.lookup j = some words →
        saved.lookup j = some words := by
  rcases h with ⟨-, rfl⟩ | ⟨found, -, -, rfl⟩
  · exact ⟨fun _ _ h => h, fun _ _ _ h => h⟩
  · refine ⟨fun j words hj => lookup_append_of_some hj, fun j words hne hj => ?_⟩
    rw [lookup_append, lookup_cons, beq_false_of_ne hne] at hj
    simpa using hj

theorem nextWindow_split {src : Source (Track σ)} {skip : ℕ → Bool}
    (h : nextWindow src skip index b reader = .ok next) :
    ∃ window, nextWindow src noSkip index b reader = .ok (window, next.2) ∧
      next.1.index = index ∧ (skip index = false → window = next.1) := by
  unfold nextWindow at h ⊢
  cases hfill : fill src b.1 b.2 (reader.dropBefore b.1) with
  | error e =>
    rw [hfill] at h
    cases h
  | ok r =>
    rw [hfill] at h
    cases h
    exact ⟨_, rfl, rfl, fun hkept => by simp [hkept]⟩

theorem hearWindows_task (hq : Queued c start job plan) (bs : List (ℕ × ℕ)) (index : ℕ)
    (reader : WindowReader (Track σ)) (saved : Saved) (progress : Progress)
    (hsaved : ∀ k words, saved.lookup (index + k) = some words →
      answerAt c bs index reader k = some words)
    (hfull : ∀ k words, answerAt c bs index reader k = some words →
      Answers c plan channel (index + k) words) :
    Prog.Task (Hearing c start job plan s₀ channel saved)
      (hearWindows c io channel bs index reader saved progress) (Kept c start job plan s₀)
      (fun r _ => match r with
        | none => ¬ Undisturbed io
        | some x => straightWindows c bs index reader = .ok (collect bs index x.1) ∧
            ∀ j words, saved.lookup j = some words → x.1.lookup j = some words)
      (Undisturbed io ∧ ∃ ws, straightWindows c bs index reader = .ok ws) := by
  induction bs generalizing index reader saved progress with
  | nil => exact pure fun s hs => ⟨hs.kept, rfl, fun _ _ h => h⟩
  | cons b rest ih =>
    refine check (fun s hs => hs.kept) (fun hs => ?_) fun next hnext => ?_
    · obtain ⟨ws, hws⟩ := hs.2
      obtain ⟨plain, hplain, -⟩ := bind_eq_ok.mp hws
      rw [nextWindow_skip, hplain]
      exact ⟨_, rfl⟩
    obtain ⟨window, hwindow, hindex, hsame⟩ := nextWindow_split hnext
    have hkept : saved.lookup next.1.index = none → window = next.1 := by
      intro hnone
      rw [hindex] at hnone
      exact hsame (by rw [hnone]; rfl)
    refine bind (W := fun _ => Undisturbed io ∧
        ∃ ws, straightWindows c rest (index + 1) next.2 = .ok ws)
      (hearWindow_task hq next.1 progress fun words hnone hwords => ?_) (fun r => ?_)
      (fun hs => ⟨hs.1, fun hnone => ?_⟩) (fun _ _ hs _ => ⟨hs.1, ?_⟩)
    · rw [hindex]
      refine hfull 0 words ((answerAt_zero c).mpr ⟨_, hwindow, ?_⟩)
      rw [hkept hnone]
      exact hwords
    · cases r with
      | none => exact pure fun s hs => ⟨hs.2, hs.1⟩
      | some x =>
        refine given (fun s hs => ⟨hs.1.2, hs.1.1⟩) fun hadded => ?_
        obtain ⟨hold, hnew⟩ := hadded.lookups
        -- the words of this window, whether they were saved or heard now
        obtain ⟨words, hfound, hwords⟩ : ∃ words, x.1.lookup index = some words ∧
            windowWords c window = .ok words := by
          rcases hadded with ⟨hsome, hx⟩ | ⟨words, hnone, hwords, hx⟩
          · obtain ⟨words, hfound⟩ := isSome_iff_exists.mp hsome
            rw [hindex] at hfound
            obtain ⟨plain, hplain, hwords⟩ := (answerAt_zero c).mp (hsaved 0 words hfound)
            cases hwindow.symm.trans hplain
            exact ⟨words, hold _ _ hfound, hwords⟩
          · refine ⟨words, ?_, ?_⟩
            · rw [hx, ← hindex]
              exact lookup_append_self hnone
            · rw [hkept hnone]
              exact hwords
        refine (ih (index + 1) next.2 x.1 x.2 (fun k ws hk => ?_) fun k ws hk => ?_).conseq
          (fun _ h => h) (fun _ h => h) (fun r s hr => ?_) (fun h => h)
        · have hk' := hnew (index + 1 + k) ws (by rw [hindex]; omega) hk
          rw [Nat.add_assoc, Nat.add_comm 1 k] at hk'
          rw [← hsaved (k + 1) ws hk', answerAt_succ c hwindow]
        · rw [Nat.add_assoc, Nat.add_comm 1 k]
          refine hfull (k + 1) ws ?_
          rw [answerAt_succ c hwindow]
          exact hk
        · cases r with
          | none => exact hr
          | some y =>
            obtain ⟨hstraight, hmono⟩ := hr
            refine ⟨?_, fun j ws hj => hmono j ws (hold j ws hj)⟩
            rw [collect, hmono index words hfound]
            exact bind_eq_ok.mpr ⟨_, hwindow, bind_eq_ok.mpr ⟨_, hwords,
              bind_eq_ok.mpr ⟨_, hstraight, rfl⟩⟩⟩
    · obtain ⟨ws, hws⟩ := hs.2
      simp only [straightWindows, bind_eq_ok] at hws
      obtain ⟨plain, hplain, words, hwords, -⟩ := hws
      cases hwindow.symm.trans hplain
      rw [← hkept hnone]
      exact ⟨words, hwords⟩
    · obtain ⟨ws, hws⟩ := hs.2
      simp only [straightWindows, bind_eq_ok] at hws
      obtain ⟨plain, hplain, -, -, others, hothers, -⟩ := hws
      cases hwindow.symm.trans hplain
      exact ⟨others, hothers⟩

/-- Rows the job wrote are read back as the words they hold. -/
theorem decodeRows_ok (channel : Channel) (hcodec : c.wordsJson.ReadsBack)
    {rows : List WindowRow}
    (h : ∀ row ∈ rows, ∃ words, row.wordsJson = c.wordsJson.toVec words ∧
      Answers c plan row.channel row.idx words) :
    ∃ saved, decodeRows c channel rows = .ok saved ∧
      (∀ row ∈ rows, row.channel = channel → (saved.lookup row.idx).isSome) ∧
      ∀ j words, saved.lookup j = some words → Answers c plan channel j words := by
  induction rows with
  | nil => exact ⟨[], rfl, by simp, by simp⟩
  | cons row rest ih =>
    obtain ⟨saved, hsaved, hknown, hanswers⟩ := ih fun r hr => h r (mem_cons_of_mem _ hr)
    unfold decodeRows
    split
    · next hchannel =>
      obtain ⟨words, hjson, hanswer⟩ := h row mem_cons_self
      have hdecode : decodeRow c row = .ok (row.idx, words) := by
        refine bind_eq_ok.mpr ⟨words, ?_, rfl⟩
        rw [hjson, hcodec]
        rfl
      refine ⟨(row.idx, words) :: saved,
        bind_eq_ok.mpr ⟨_, hdecode, bind_eq_ok.mpr ⟨_, hsaved, rfl⟩⟩, ?_, ?_⟩
      · intro r hr hc
        rw [lookup_cons]
        split
        · rfl
        · next hne =>
          rcases mem_cons.mp hr with rfl | hr
          · simp at hne
          · exact hknown r hr hc
      · intro j ws hj
        rw [lookup_cons] at hj
        split at hj
        · next heq =>
          cases hj
          rw [eq_of_beq heq, ← hchannel]
          exact hanswer
        · exact hanswers j ws hj
    · next hchannel =>
      refine ⟨saved, hsaved, fun r hr hc => ?_, hanswers⟩
      rcases mem_cons.mp hr with rfl | hr
      · exact absurd hc hchannel
      · exact hknown r hr hc

theorem hearTracks_task (hq : Queued c start job plan) (hcodec : c.wordsJson.ReadsBack)
    (tracks : List (Channel × Track σ)) (progress : Progress)
    (hopen : ∀ t ∈ tracks, openTrack c plan t.1 = .ok (some t.2)) :
    Retraces c io start job plan s₀ (hearTracks c io plan tracks progress)
      (straightTracks c plan tracks) := by
  induction tracks generalizing progress with
  | nil => exact pure fun s hs => ⟨hs, rfl⟩
  | cons t rest ih =>
    obtain ⟨channel, track⟩ := t
    have hthis := hopen (channel, track) mem_cons_self
    refine bind (U := True)
      (B := fun saved s =>
        (∀ j words, saved.lookup j = some words → Answers c plan channel j words) ∧
        Hearing c start job plan s₀ channel saved s)
      (read (fun s hs => hs) (fun s saved hs hsaved => ?_) fun _ s hs => ?_)
      (fun saved => ?_) (fun _ => trivial) (fun _ _ hs _ => hs)
    · obtain ⟨found, hfound, hknown, hanswers⟩ :=
        decodeRows_ok channel hcodec hs.working.answered
      cases hfound.symm.trans hsaved
      exact ⟨hanswers, hs, hknown⟩
    · obtain ⟨found, hfound, -, -⟩ :=
        decodeRows_ok channel hcodec hs.working.answered
      exact ⟨found, hfound⟩
    refine given (fun s hs => hs.1) fun hanswers => ?_
    refine bind
      (W := fun _ => Undisturbed io ∧ ∃ heard, straightTracks c plan rest = .ok heard)
      (hearWindows_task hq _ 0 _ saved _ (fun k words hk => ?_) fun k words hk => ?_) (fun r => ?_)
      (fun hs => ⟨hs.1, ?_⟩) (fun _ _ hs _ => ⟨hs.1, ?_⟩)
    · rw [Nat.zero_add] at hk
      obtain ⟨track', htrack', hanswer⟩ := hanswers k words hk
      cases hthis.symm.trans htrack'
      exact hanswer
    · rw [Nat.zero_add]
      exact ⟨track, hthis, hk⟩
    · cases r with
      | none => exact pure fun s hs => ⟨hs.2, hs.1⟩
      | some x =>
        refine given (fun s hs => hs) fun hx => ?_
        refine map (ih x.2 fun t ht => hopen t (mem_cons_of_mem _ ht)) fun o s ho => ?_
        cases o with
        | none => exact ho
        | some y => exact bind_eq_ok.mpr ⟨_, hx.1, bind_eq_ok.mpr ⟨_, ho, rfl⟩⟩
    · obtain ⟨heard, hheard⟩ := hs.2
      obtain ⟨windows, hwindows, -⟩ := bind_eq_ok.mp hheard
      exact ⟨windows, hwindows⟩
    · obtain ⟨heard, hheard⟩ := hs.2
      simp only [straightTracks, bind_eq_ok] at hheard
      obtain ⟨-, -, others, hothers, -⟩ := hheard
      exact ⟨others, hothers⟩

end Hear

/-! ## Labelling the speakers -/

section Label
variable {c} {io : RunIo} {start : Library} {job : PostPassJob} {plan : Plan} {s₀ : JobState}

theorem finishSession_ne_stopped (session : δ) : finishSession c session ≠ .stopped := by
  unfold finishSession unavailable
  split <;> simp

/-- A diarization that ran to its end is the straight one. -/
def Labelled (straight : Except String Diarized) (io : RunIo) (d : Diarized) : Prop :=
  (d = .stopped ∧ ¬ Undisturbed io) ∨ (d ≠ .stopped ∧ straight = .ok d)

variable {track : Track σ} {session : δ}

theorem straightSpans_error {e : String} (hread : c.tracks.read track diarizeChunk = .error e) :
    straightSpans c track session = .error e := by
  rw [straightSpans]
  split <;> simp_all

variable {track' : Track σ}

theorem straightSpans_end (hread : c.tracks.read track diarizeChunk = .ok ([], track')) :
    straightSpans c track session = .ok (finishSession c session) := by
  rw [straightSpans]
  split <;> simp_all

theorem straightSpans_more {x : Int16} {more : Pcm}
    (hread : c.tracks.read track diarizeChunk = .ok (x :: more, track')) :
    straightSpans c track session =
      match c.engine.push session (x :: more) with
      | .error e => .ok (unavailable e)
      | .ok session => straightSpans c track' session := by
  rw [straightSpans]
  split <;> simp_all

section
variable (hq : Queued c start job plan)
include hq

theorem diarizeLoop_task (base : Progress) (units total : ℕ)
    (track : Track σ) (session : δ) (sent chunk : ℕ) :
    Prog.Task (Kept c start job plan s₀)
      (diarizeLoop c io base units total track session sent chunk)
      (Kept c start job plan s₀) (fun d _ => Labelled (straightSpans c track session) io d)
      (Undisturbed io ∧ ∃ d, straightSpans c track session = .ok d) := by
  induction hleft : c.tracks.left track using Nat.strong_induction_on generalizing
    track session sent chunk with
  | _ n ih =>
    unfold diarizeLoop
    split
    · next hstop =>
      refine Prog.Task.pure fun s hs => ⟨hs, .inl ⟨rfl, fun hu => ?_⟩⟩
      rw [hu.chunks] at hstop
      cases hstop
    split
    · next e hread =>
      rw [straightSpans_error hread]
      exact Prog.Task.read (fun _ h => h) (fun _ _ _ h => absurd h (by simp))
        fun hs => absurd hs.2 (by simp)
    · next track' hread =>
      rw [straightSpans_end hread]
      exact Prog.Task.pure fun s hs => ⟨hs, .inr ⟨finishSession_ne_stopped session, rfl⟩⟩
    · next x more track' hread =>
      rw [straightSpans_more hread]
      cases hpush : c.engine.push session (x :: more) with
      | error e => exact Prog.Task.pure fun s hs => ⟨hs, .inr ⟨by simp [unavailable], rfl⟩⟩
      | ok session' =>
        have hless := c.tracks.read_left hread
        simp only [length_cons] at hless
        refine Prog.Task.bind (U := True) (B := fun _ s => Kept c start job plan s₀ s)
          (Prog.Task.step fun s hs => ?_)
          (fun _ => (ih _ (by omega) track' session' _ _ rfl).conseq (fun s hs => hs.2)
            (fun _ h => h) (fun _ _ h => h) (fun h => h))
          (fun _ => trivial) (fun _ _ hs _ => hs)
        split
        · exact ⟨hs, hs⟩
        · obtain ⟨hworking, hwindows⟩ := hs.working.progress hq
            (Progress.permille
              { base with done := base.done + units * (sent + (x :: more).length) / total })
          have hkept : Kept c start job plan s₀ { s with library := s.library.progress _ } :=
            ⟨hworking, hs.follows.library fun row hrow => by rw [hwindows]; exact hrow⟩
          exact ⟨hkept, hkept⟩

theorem diarize_task (progress : Progress) (units : ℕ) :
    Prog.Task (Kept c start job plan s₀) (diarize c io plan progress units)
      (Kept c start job plan s₀) (fun d _ => Labelled (straightDiarize c plan) io d)
      (Undisturbed io ∧ ∃ d, straightDiarize c plan = .ok d) := by
  unfold diarize straightDiarize
  rcases c.engine.diarize with e | (_ | session)
  · exact Prog.Task.pure fun s hs => ⟨hs, .inr ⟨by simp [unavailable], rfl⟩⟩
  · exact Prog.Task.pure fun s hs => ⟨hs, .inr ⟨by simp [noDiarizer], rfl⟩⟩
  · refine Prog.Task.check (fun _ h => h) (fun hs => ?_) fun track htrack => ?_
    · obtain ⟨d, hd⟩ := hs.2
      obtain ⟨track, htrack, -⟩ := bind_eq_ok.mp hd
      exact ⟨track, htrack⟩
    simp only [bind_congr_ok htrack]
    cases track with
    | none => exact Prog.Task.pure fun s hs => ⟨hs, .inr ⟨by simp, rfl⟩⟩
    | some track => exact diarizeLoop_task hq _ _ _ track session 0 0

theorem labelSpeakers_task (heard : Heard) (progress : Progress) (units : ℕ) :
    Retraces c io start job plan s₀ (labelSpeakers c io plan heard progress units)
      (straightLabels c plan heard) := by
  unfold labelSpeakers straightLabels
  by_cases hsystem : heard.hasSystem
  · rw [if_pos hsystem, if_pos hsystem]
    split
    · next hstop =>
      refine Prog.Task.pure fun s hs => ⟨hs, fun hu => ?_⟩
      rw [hu.labels] at hstop
      cases hstop
    · refine (Prog.Task.map (diarize_task hq progress units) fun d s hd => ?_).conseq
        (fun _ h => h) (fun _ h => h) (fun _ _ h => h) fun hs => ⟨hs.1, ?_⟩
      · rcases hd with ⟨rfl, hstopped⟩ | ⟨hne, hd⟩
        · exact hstopped
        · rw [bind_congr_ok hd]
          cases d with
          | spans | unavailable => rfl
          | stopped => exact absurd rfl hne
      · obtain ⟨speakers, hspeakers⟩ := hs.2
        obtain ⟨d, hd, -⟩ := bind_eq_ok.mp hspeakers
        exact ⟨d, hd⟩
  · rw [if_neg hsystem, if_neg hsystem]
    exact Prog.Task.pure fun s hs => ⟨hs, rfl⟩

end

end Label

/-! ## Storing the new version -/

/-- The version the job produced. -/
def Library.cleaned (l : Library) : Option Transcript := do
  let job ← l.job
  let id ← job.cleanedTranscriptId
  l.transcripts.find? (·.id == id)

/-- The job is done, its version is stored, and every earlier version has its text. -/
structure Finished (id : String) (cleaned : Cleaned) (l : Library) : Prop where
  done : ∃ job, l.job = some job ∧ job.state = .done
  version : ∃ primary, l.cleaned = some ⟨id, provider, cleaned.model, primary, cleaned.rows⟩
  others : ∀ t ∈ start.transcripts, ∃ primary, { t with isPrimary := primary } ∈ l.transcripts
  windows : l.windows = []

def Ended (plan : Plan) (s₀ t : JobState) : Prop :=
  ∃ id cleaned, straightJob c plan = .ok cleaned ∧ Finished start id cleaned t.library ∧
    Spared s₀ t

section Store
variable {c} {io : RunIo} {start l : Library} {job : PostPassJob} {plan : Plan} {s₀ : JobState}
  {id : String} {cleaned : Cleaned}

theorem Working.complete_ok (h : Working c start job plan l) {provenance : List UInt8}
    {detail : Option String} {now : ℤ}
    (hl : l.complete id provider cleaned.model cleaned.rows provenance detail now = .ok l') :
    Finished start id cleaned l' := by
  obtain ⟨current, -, hl⟩ := bind_eq_ok.mp hl
  obtain ⟨hunique, hl⟩ := refuseIf_bind_ok.mp hl
  have hnew : ∀ t ∈ l.transcripts, t.id ≠ id := by
    have hany := hunique
    rw [List.any_eq_false] at hany
    exact fun t ht heq => hany t ht (beq_iff_eq.mpr heq)
  cases hl
  refine ⟨⟨_, rfl, rfl⟩, ⟨takesOver l current now, ?_⟩, fun t ht => ?_, rfl⟩
  · show find? _ (_ ++ _) = _
    rw [find?_append, find?_eq_none.mpr, none_or, find?_cons_of_pos]
    · exact beq_self_eq_true id
    · intro t ht heq
      split at ht
      · obtain ⟨t', ht', rfl⟩ := mem_map.mp ht
        exact hnew t' ht' (beq_iff_eq.mp heq)
      · exact hnew t ht (beq_iff_eq.mp heq)
  · rw [← h.transcripts] at ht
    by_cases htake : takesOver l current now
    · refine ⟨false, mem_append_left _ ?_⟩
      rw [if_pos htake]
      exact mem_map_of_mem ht
    · refine ⟨t.isPrimary, mem_append_left _ ?_⟩
      rw [if_neg htake]
      exact ht

theorem Working.complete_some (hq : Queued c start job plan) (h : Working c start job plan l)
    (hid : ∀ t ∈ start.transcripts, t.id ≠ id) (model : String) (rows : List NewSegment)
    (provenance : List UInt8) (detail : Option String) (now : ℤ) :
    ∃ l', l.complete id provider model rows provenance detail now = .ok l' := by
  obtain ⟨before, hbefore⟩ := h.pendingJob hq
  have hunique : (l.transcripts.any (·.id == id)) = false := by
    rw [List.any_eq_false, h.transcripts]
    exact fun t ht heq => hid t ht (beq_iff_eq.mp heq)
  refine ⟨_, bind_eq_ok.mpr ⟨_, hbefore, bind_eq_ok.mpr ⟨(), ?_, rfl⟩⟩⟩
  rw [hunique]
  exact refuseIf_false _

/-- How a run ends, when it does not fail. -/
def Ending (start : Library) (io : RunIo) (cleaned : Except String Cleaned) (r : Outcome)
    (t : JobState) : Prop :=
  match r with
  | .done id => id = io.newId ∧ ∃ a, cleaned = .ok a ∧ Finished start io.newId a t.library
  | .stopped => ¬ Undisturbed io

/-- A run that nothing disturbs and whose version gets an id of its own. -/
def Clear (start : Library) (io : RunIo) : Prop :=
  Undisturbed io ∧ ∀ t ∈ start.transcripts, t.id ≠ io.newId

variable (c io start job plan s₀) in
/-- A part of the run that takes it to its end. -/
abbrev Concludes (p : Prog JobState String Outcome) (sure : Prop) : Prop :=
  Prog.Task (Kept c start job plan s₀) p
    (fun t => Kept c start job plan s₀ t ∨ Ended c start plan s₀ t)
    (Ending start io (straightJob c plan)) sure

/-- What comes after a part that follows the straight run; if that was stopped, the run is. -/
theorem Retraces.concludes {α β : Type} {p : Prog JobState String (Option (α × β))}
    {straight : Except String α} {next : Option (α × β) → Prog JobState String Outcome}
    {U W : Prop} (hp : Retraces c io start job plan s₀ p straight)
    (hstopped : next none = pure .stopped)
    (hnext : ∀ x, straight = .ok x.1 → Concludes c io start job plan s₀ (next (some x)) W)
    (hsure : U → Undisturbed io ∧ ∃ a, straight = .ok a) (hW : U → W) :
    Concludes c io start job plan s₀ (p >>= next) U := by
  refine Prog.Task.bind (A := fun t => Kept c start job plan s₀ t ∨ Ended c start plan s₀ t)
    (B := fun r s => Kept c start job plan s₀ s ∧ match r with
      | none => ¬ Undisturbed io
      | some x => straight = .ok x.1)
    (W := fun _ => W) ⟨fun s hs => ?_, fun s hs t ht => .inl (hp.crash s hs t ht)⟩ (fun r => ?_)
    hsure (fun _ _ hs _ => hW hs)
  · obtain ⟨hkept, hok, hsure⟩ := hp.post s hs
    exact ⟨.inl hkept, fun a ha => ⟨hkept, hok a ha⟩, hsure⟩
  · cases r with
    | none =>
      rw [hstopped]
      exact Prog.Task.pure fun s hs => ⟨hs.2, hs.1.2⟩
    | some x => exact Prog.Task.given (fun s hs => ⟨hs.1.2, hs.1.1⟩) (hnext x)

theorem store_task (hq : Queued c start job plan) (hcleaned : straightJob c plan = .ok cleaned)
    (job' : PostPassJob) (notes : List String) :
    Concludes c io start job plan s₀ (store c io job' plan cleaned notes) (Clear start io) := by
  refine Prog.Task.bind (B := fun _ t => Finished start io.newId cleaned t.library)
    (commit_task (fun s hs => .inl hs) (fun s l hs hl => ?_) fun hclear =>
      ⟨hclear.1.completion, fun s hs => hs.working.complete_some hq hclear.2 _ _ _ _ _⟩)
    (fun _ => Prog.Task.pure fun t ht => ⟨ht.2, rfl, cleaned, hcleaned, ht.1⟩)
    (fun hs => hs) (fun _ _ hs _ => hs)
  have hfinished := hs.working.complete_ok hl
  exact ⟨.inr ⟨io.newId, cleaned, hcleaned, hfinished, hs.follows.heard⟩, hfinished⟩

variable {tracks : List (Channel × Track σ)}

theorem finishJob_task (hq : Queued c start job plan) {heard : Heard}
    (htracks : openTracks c plan [.mic, .system] = .ok tracks)
    (hheard : straightTracks c plan tracks = .ok heard) (job' : PostPassJob) (units : ℕ)
    (progress : Progress) :
    Concludes c io start job plan s₀ (finishJob c io job' plan units heard progress)
      (Clear start io ∧ ∃ cleaned, straightJob c plan = .ok cleaned) := by
  refine (labelSpeakers_task hq heard progress units).concludes rfl (fun x hlabels => ?_)
    (fun hs => ⟨hs.1.1, ?_⟩) fun hs => hs.1
  · exact store_task hq (bind_eq_ok.mpr ⟨_, htracks, bind_eq_ok.mpr ⟨_, hheard,
      bind_eq_ok.mpr ⟨_, hlabels, rfl⟩⟩⟩) job' x.2
  · obtain ⟨cleaned, hcleaned⟩ := hs.2
    simp only [straightJob, bind_eq_ok] at hcleaned
    obtain ⟨tracks', htracks', heard', hheard', speakers, hspeakers, -⟩ := hcleaned
    cases htracks.symm.trans htracks'
    cases hheard.symm.trans hheard'
    exact ⟨speakers, hspeakers⟩

theorem openTracks_mem {channels : List Channel} (h : openTracks c plan channels = .ok tracks) :
    ∀ t ∈ tracks, openTrack c plan t.1 = .ok (some t.2) := by
  induction channels generalizing tracks with
  | nil =>
    cases h
    exact fun t ht => absurd ht not_mem_nil
  | cons channel rest ih =>
    obtain ⟨track, htrack, h⟩ := bind_eq_ok.mp h
    obtain ⟨others, hothers, h⟩ := bind_eq_ok.mp h
    cases h
    intro t ht
    rcases mem_append.mp ht with ht | ht
    · cases track with
      | none => exact absurd ht not_mem_nil
      | some track =>
        rw [mem_singleton.mp ht]
        exact htrack
    · exact ih hothers t ht

section
variable (hq : Queued c start job plan) (hcodec : c.wordsJson.ReadsBack)
include hq hcodec

theorem workOn_task (htracks : openTracks c plan [.mic, .system] = .ok tracks)
    (job' : PostPassJob) :
    Concludes c io start job plan s₀ (workOn c io job' plan tracks)
      (Clear start io ∧ ∃ cleaned, straightJob c plan = .ok cleaned) := by
  refine (hearTracks_task hq hcodec tracks (startProgress c plan tracks)
    (openTracks_mem htracks)).concludes rfl (fun x hheard => ?_) (fun hs => ⟨hs.1.1, ?_⟩)
    fun hs => hs
  · exact finishJob_task hq htracks hheard job' _ x.2
  · obtain ⟨cleaned, hcleaned⟩ := hs.2
    simp only [straightJob, bind_eq_ok] at hcleaned
    obtain ⟨tracks', htracks', heard, hheard, -⟩ := hcleaned
    cases htracks.symm.trans htracks'
    exact ⟨heard, hheard⟩

/-- A run from a library in which the job is at work. -/
theorem runJob_task : Concludes c io start job plan s₀ (runJob c io)
      (Clear start io ∧ ∃ cleaned, straightJob c plan = .ok cleaned) := by
  refine Prog.Task.bind (U := True)
    (B := fun job' s => (∃ permille, job' = { job with progressPermille := permille }) ∧
      Kept c start job plan s₀ s)
    (Prog.Task.read (fun s hs => .inl hs) (fun s job' hs hjob' => ?_) fun _ s hs => ?_)
    (fun job' => ?_) (fun _ => trivial) (fun _ _ hs _ => hs)
  · obtain ⟨permille, hstored⟩ := hs.working.stored
    rw [hstored] at hjob'
    cases hjob'
    exact ⟨⟨permille, rfl⟩, hs⟩
  · obtain ⟨permille, hstored⟩ := hs.working.stored
    rw [hstored]
    exact ⟨_, rfl⟩
  refine Prog.Task.given (fun s hs => hs.1) fun hjob' => ?_
  obtain ⟨permille, rfl⟩ := hjob'
  refine Prog.Task.check (fun s hs => .inl hs) (fun _ => ⟨plan, hq.planned⟩) fun plan' hplan' => ?_
  cases hq.planned.symm.trans hplan'
  refine Prog.Task.check (fun s hs => .inl hs) (fun hs => ?_) fun tracks htracks =>
    workOn_task hq hcodec htracks _
  obtain ⟨cleaned, hcleaned⟩ := hs.2
  obtain ⟨tracks, htracks, -⟩ := bind_eq_ok.mp hcleaned
  exact ⟨tracks, htracks⟩

end

end Store

end FlyOnTheWall.PostPass
