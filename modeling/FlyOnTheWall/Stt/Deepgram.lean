/-
  The Deepgram normaliser (`deepgram.rs`, with the tracker of `store.rs` and the clocks of
  `clock.rs`): streaming result frames become revisions of transcript segments. One utterance is
  open at a time. A frame marked final settles its chunk; a speech-final one, a reconnect or the
  end of the stream closes the utterance. Speaker labels, confidences and the constants of the
  configuration are left out: nothing here depends on them.
-/
import FlyOnTheWall.Lib.U64
import Mathlib.Data.List.Nodup

namespace FlyOnTheWall.Stt
open Lib List Option

variable (Seconds : Type)

/-- What the normaliser takes from outside. -/
structure Env where
  /-- `seconds_to_ms`: rounding a float, saturated. -/
  secondsToMs : Seconds → ℕ
  /-- `str::trim`. -/
  trim : String → String
  /-- The ids of the factory, in the order in which it mints them; none is minted twice. -/
  nextId : ℕ → String
  nextId_injective : Function.Injective nextId

/-! ## Frames -/

structure DeepgramWord where
  word : String
  punctuatedWord : Option String
  start : Seconds
  end_ : Seconds

structure DeepgramAlternative where
  transcript : String
  words : List (DeepgramWord Seconds)

structure DeepgramResult where
  messageType : Option String
  channel : Option (List (DeepgramAlternative Seconds))
  start : Option Seconds
  duration : Option Seconds
  isFinal : Bool
  speechFinal : Bool

variable {Seconds : Type}

def DeepgramWord.displayText (w : DeepgramWord Seconds) : String :=
  match w.punctuatedWord with
  | some punctuated => if punctuated.isEmpty then w.word else punctuated
  | none => w.word

/-- The first hypothesis of a `Results` frame. -/
def DeepgramResult.primaryAlternative (message : DeepgramResult Seconds) :
    Option (DeepgramAlternative Seconds) :=
  if message.messageType.any (· != "Results") then none else message.channel.bind List.head?

/-! ## Clocks and segments -/

structure SessionClock where
  anchorMs : ℕ
  connectionMs : ℕ

def SessionClock.toSessionMs (clock : SessionClock) (ms : ℕ) : ℕ :=
  saturatingAdd (saturatingAdd clock.anchorMs clock.connectionMs) ms

inductive TimestampSource
  | provider
  | estimated

structure TimeSpan where
  startMs : ℕ
  endMs : ℕ
  source : TimestampSource

def TimeSpan.provided (startMs endMs : ℕ) : TimeSpan := ⟨startMs, max endMs startMs, .provider⟩

def TimeSpan.estimated (startMs endMs : ℕ) : TimeSpan := ⟨startMs, max endMs startMs, .estimated⟩

structure Word where
  text : String
  startMs : ℕ
  endMs : ℕ

structure TranscriptSegment where
  id : String
  text : String
  startMs : ℕ
  endMs : ℕ
  words : List Word
  isFinal : Bool
  revision : UInt32
  timestampSource : TimestampSource

/-! ## The tracker -/

structure UtteranceTracker where
  /-- How many ids the factory has minted. -/
  minted : ℕ
  openId : Option String
  nextRevision : UInt32

variable (env : Env Seconds)

variable (t : UtteranceTracker)

def openOrStart : String × UtteranceTracker :=
  match t.openId with
  | some id => (id, t)
  | none => (env.nextId t.minted, ⟨t.minted + 1, some (env.nextId t.minted), 0⟩)

def nextPartial : (String × UInt32) × UtteranceTracker :=
  let (id, t) := openOrStart env t
  ((id, t.nextRevision), { t with nextRevision := t.nextRevision + 1 })

def nextFinal : (String × UInt32) × UtteranceTracker :=
  let (id, t) := openOrStart env t
  ((id, t.nextRevision), { t with openId := none, nextRevision := 0 })

/-! ## The normaliser -/

structure Committed where
  text : String
  words : List Word

def Committed.isEmpty (c : Committed) : Bool := c.text.isEmpty && c.words.isEmpty

structure DeepgramNormalizer where
  clock : SessionClock
  tracker : UtteranceTracker
  /-- The arrival estimator. -/
  lastEndMs : ℕ
  committed : Committed
  open_ : Option TranscriptSegment

/-- The normaliser of a leg whose audio starts `anchorMs` into the session. -/
def anchoredAt (anchorMs : ℕ) : DeepgramNormalizer :=
  ⟨⟨anchorMs, 0⟩, ⟨0, none, 0⟩, anchorMs, ⟨"", []⟩, none⟩

def hasOpenUtterance (n : DeepgramNormalizer) : Bool := !n.committed.isEmpty || n.open_.isSome

def joinText (committed chunk : String) : String :=
  if committed.isEmpty then chunk
  else if chunk.isEmpty then committed
  else committed ++ " " ++ chunk

def bounds (words : List Word) : Option (ℕ × ℕ) :=
  words.foldl (fun bounds word => match bounds with
    | none => some (word.startMs, word.endMs)
    | some (startMs, endMs) => some (min startMs word.startMs, max endMs word.endMs)) none

variable (env : Env Seconds)

def normalizeWord (clock : SessionClock) (word : DeepgramWord Seconds) : Word :=
  let startMs := clock.toSessionMs (env.secondsToMs word.start)
  ⟨word.displayText, startMs, max (clock.toSessionMs (env.secondsToMs word.end_)) startMs⟩

/-- The span of a segment, and where the estimator stands afterwards. -/
def spanFor (n : DeepgramNormalizer) (message : DeepgramResult Seconds) (words : List Word)
    (arrivalSessionMs : Option ℕ) : TimeSpan × ℕ :=
  match bounds (n.committed.words ++ words), message.start, arrivalSessionMs with
  | some (startMs, endMs), _, _ => (.provided startMs endMs, max n.lastEndMs endMs)
  | none, some start, _ =>
    let startMs := n.clock.toSessionMs (env.secondsToMs start)
    let endMs := (startMs + (message.duration.map env.secondsToMs).getD 0) % 2 ^ 64
    (.provided startMs endMs, max n.lastEndMs endMs)
  | none, none, some arrival =>
    let endMs := max arrival n.lastEndMs
    (.estimated n.lastEndMs endMs, endMs)
  | none, none, none => (.estimated n.lastEndMs n.lastEndMs, n.lastEndMs)

def commit (c : Committed) (alternative : DeepgramAlternative Seconds) (words : List Word) :
    Committed :=
  ⟨joinText c.text (env.trim alternative.transcript), c.words ++ words⟩

/-- A segment repeats what its utterance has committed and adds the frame's own chunk. -/
def buildSegment (n : DeepgramNormalizer) (name : String × UInt32) (isFinal : Bool)
    (alternative : DeepgramAlternative Seconds) (words : List Word) (span : TimeSpan) :
    TranscriptSegment :=
  let all := commit env n.committed alternative words
  ⟨name.1, all.text, span.startMs, span.endMs, all.words, isFinal, name.2, span.source⟩

/-- The hypothesis that a frame is read for, unless it says nothing. -/
def spoken (message : DeepgramResult Seconds) : Option (DeepgramAlternative Seconds) :=
  message.primaryAlternative.filter fun alternative =>
    !((env.trim alternative.transcript).isEmpty && alternative.words.isEmpty)

variable (n : DeepgramNormalizer)

def pushMessageAt (message : DeepgramResult Seconds)
    (arrivalSessionMs : Option ℕ) : DeepgramNormalizer × Option TranscriptSegment :=
  match spoken env message with
  | none => (n, none)
  | some alternative =>
    let words := alternative.words.map (normalizeWord env n.clock)
    let (span, lastEndMs) := spanFor env n message words arrivalSessionMs
    if message.speechFinal then
      let (name, tracker) := nextFinal env n.tracker
      ({ n with tracker, lastEndMs, committed := ⟨"", []⟩, open_ := none },
        some (buildSegment env n name true alternative words span))
    else
      let (name, tracker) := nextPartial env n.tracker
      let segment := buildSegment env n name false alternative words span
      let committed :=
        if message.isFinal then commit env n.committed alternative words else n.committed
      ({ n with tracker, lastEndMs, committed, open_ := some segment }, some segment)

def finish : DeepgramNormalizer × Option TranscriptSegment :=
  match n.open_ with
  | none => (n, none)
  | some segment =>
    let (name, tracker) := nextFinal env n.tracker
    ({ n with tracker, committed := ⟨"", []⟩, open_ := none },
      some { segment with revision := name.2, isFinal := true })

def reconnectedAt (legMs : ℕ) : DeepgramNormalizer × Option TranscriptSegment :=
  let (n, dangling) := finish env n
  let clock := { n.clock with connectionMs := legMs }
  ({ n with clock, lastEndMs := max n.lastEndMs (clock.toSessionMs 0) }, dangling)

/-! ## Sessions -/

inductive Event (Seconds : Type)
  | frame (message : DeepgramResult Seconds) (arrivalSessionMs : Option ℕ)
  | reconnect (legMs : ℕ)
  | finish

def step (n : DeepgramNormalizer) : Event Seconds → DeepgramNormalizer × Option TranscriptSegment
  | .frame message arrival => pushMessageAt env n message arrival
  | .reconnect legMs => reconnectedAt env n legMs
  | .finish => finish env n

/-- What a frame says: whether it settles its words, and the words on the session clock. -/
def heard (n : DeepgramNormalizer) : Event Seconds → Option (Bool × List Word)
  | .frame message _ => (spoken env message).map fun alternative =>
    (message.isFinal || message.speechFinal, alternative.words.map (normalizeWord env n.clock))
  | _ => none

/-- The normaliser, the segments it emitted and the chunks it was sent. -/
structure Session where
  normalizer : DeepgramNormalizer
  emitted : List TranscriptSegment
  chunks : List (Bool × List Word)

def Session.next (s : Session) (e : Event Seconds) : Session :=
  ⟨(step env s.normalizer e).1, s.emitted ++ (step env s.normalizer e).2.toList,
    s.chunks ++ (heard env s.normalizer e).toList⟩

def session (anchorMs : ℕ) (events : List (Event Seconds)) : Session :=
  events.foldl (·.next env) ⟨anchoredAt anchorMs, [], []⟩

/-! ## What is received

    Said of the frames alone: the words and the text of a frame as they came in, on the clock of
    the session. -/

structure Chunk where
  /-- The frame is final or speech-final. -/
  settles : Bool
  words : List Word
  text : String

/-- A word in its display form if it has one. The connection's zero is at `originMs`. -/
def DeepgramWord.received (originMs : ℕ) (w : DeepgramWord Seconds) : Word :=
  let startMs := min (originMs + env.secondsToMs w.start) u64Max
  ⟨(w.punctuatedWord.filter (· ≠ "")).getD w.word, startMs,
    max (min (originMs + env.secondsToMs w.end_) u64Max) startMs⟩

/-- The first hypothesis of a result, unless it is blank. -/
def DeepgramResult.received (originMs : ℕ) (message : DeepgramResult Seconds) : Option Chunk :=
  match message.channel with
  | some (first :: _) =>
    if message.messageType.getD "Results" = "Results" ∧
        (first.words ≠ [] ∨ env.trim first.transcript ≠ "") then
      some ⟨message.isFinal || message.speechFinal, first.words.map (·.received env originMs),
        env.trim first.transcript⟩
    else none
  | _ => none

/-- Where the connection's zero is, and the chunks of the frames so far. -/
structure Received where
  originMs : ℕ
  chunks : List Chunk

def Received.next (anchorMs : ℕ) (r : Received) : Event Seconds → Received
  | .frame message _ => { r with chunks := r.chunks ++ (message.received env r.originMs).toList }
  | .reconnect legMs => { r with originMs := anchorMs + legMs }
  | .finish => r

def received (anchorMs : ℕ) (events : List (Event Seconds)) : List Chunk :=
  (events.foldl (Received.next env anchorMs) ⟨anchorMs, []⟩).chunks

/-- The texts that are not empty, with blanks between them. -/
def textOf (chunks : List Chunk) : String :=
  " ".intercalate ((chunks.map (·.text)).filter (· ≠ ""))

/-! ## Utterances -/

/-- What is emitted for one utterance, and the settled chunks that its final holds. -/
structure Utterance where
  partials : List TranscriptSegment
  final : TranscriptSegment
  held : List Chunk

def Utterance.segments (u : Utterance) : List TranscriptSegment := u.partials ++ [u.final]

def TranscriptSegment.name (segment : TranscriptSegment) : String × UInt32 × Bool :=
  (segment.id, segment.revision, segment.isFinal)

/-- Revisions 0, 1, 2, … of one segment, none of them final. -/
def Row (id : String) (partials : List TranscriptSegment) : Prop :=
  partials.map (·.name) = (List.range partials.length).map fun i => (id, UInt32.ofNat i, false)

variable (chunks : List Chunk)

/-- A segment holds the words and the text of these settled chunks, in order, and behind them at
    most those of one chunk that was not settled. -/
def Holds (held : List Chunk) (segment : TranscriptSegment) : Prop :=
  ∃ rest, (∀ c ∈ rest, c ∈ chunks ∧ c.settles = false) ∧ rest.length ≤ 1 ∧
    segment.words = (held ++ rest).flatMap (·.words) ∧ segment.text = textOf (held ++ rest)

/-- One row of revisions with one final at its end. -/
structure Utterance.Whole (u : Utterance) : Prop where
  row : Row u.final.id u.partials
  last : u.final.name = (u.final.id, UInt32.ofNat u.partials.length, true)
  holds : Holds chunks u.held u.final

variable {env} {anchorMs : ℕ} {s : Session} {r : Received} {us : List Utterance}
  {partials : List TranscriptSegment} {id : String} {pending : List Chunk}
  {segment : TranscriptSegment}

/-! ## Frames as received and as read -/

theorem toSessionMs_eq (clock : SessionClock) (ms : ℕ) :
    clock.toSessionMs ms = min (clock.anchorMs + clock.connectionMs + ms) u64Max := by
  unfold SessionClock.toSessionMs saturatingAdd
  omega

theorem received_word (clock : SessionClock) (w : DeepgramWord Seconds) :
    w.received env (clock.anchorMs + clock.connectionMs) = normalizeWord env clock w := by
  have htext : (w.punctuatedWord.filter (· ≠ "")).getD w.word = w.displayText := by
    unfold DeepgramWord.displayText
    cases w.punctuatedWord with
    | none => rfl
    | some punctuated => by_cases h : punctuated = "" <;> simp [h, Option.filter]
  simp only [DeepgramWord.received, normalizeWord, toSessionMs_eq, htext]

/-- The normaliser reads what is received. -/
theorem received_frame (env : Env Seconds) (clock : SessionClock)
    (message : DeepgramResult Seconds) :
    message.received env (clock.anchorMs + clock.connectionMs) =
      (spoken env message).map fun alternative =>
        ⟨message.isFinal || message.speechFinal,
          alternative.words.map (normalizeWord env clock), env.trim alternative.transcript⟩ := by
  have htype : message.messageType.getD "Results" = "Results" ↔
      message.messageType.any (· != "Results") = false := by
    cases message.messageType <;> simp
  unfold DeepgramResult.received spoken DeepgramResult.primaryAlternative
  simp only [htype]
  cases message.messageType.any (· != "Results") with
  | true =>
    simp only [Bool.true_eq_false, false_and, if_false, if_true]
    split <;> rfl
  | false =>
    rcases message.channel with _ | _ | ⟨first, rest⟩
    · rfl
    · rfl
    · by_cases hblank : first.words = [] ∧ env.trim first.transcript = ""
      · simp [hblank, Option.filter]
      · have htells : first.words ≠ [] ∨ env.trim first.transcript ≠ "" := by
          rwa [← not_and_or]
        have hread : (!((env.trim first.transcript).isEmpty && first.words.isEmpty)) = true := by
          simp only [Bool.not_eq_true', Bool.and_eq_false_iff]
          rcases htells with h | h
          · exact .inr (by simpa using h)
          · exact .inl (by simpa using h)
        simp [htells, hread, Option.filter, received_word]

theorem intercalate_concat (sep x : String) {l : List String} (h : l ≠ []) :
    sep.intercalate (l ++ [x]) = sep.intercalate l ++ sep ++ x := by
  induction l with
  | nil => exact absurd rfl h
  | cons a l ih =>
    cases l with
    | nil => simp
    | cons b l =>
      have hrest := ih (cons_ne_nil b l)
      simp only [cons_append, String.intercalate_cons_cons] at hrest ⊢
      rw [hrest]
      simp only [String.append_assoc]

theorem intercalate_eq_empty {sep : String} {l : List String} (h : ∀ x ∈ l, x ≠ "") :
    sep.intercalate l = "" ↔ l = [] := by
  constructor
  · intro hempty
    cases l with
    | nil => rfl
    | cons a l =>
      have ha := h a mem_cons_self
      cases l with
      | nil => simp_all
      | cons b l => simp_all [String.intercalate_cons_cons]
  · rintro rfl
    rfl

theorem textOf_concat (held : List Chunk) (c : Chunk) :
    textOf (held ++ [c]) = joinText (textOf held) c.text := by
  have hempty : textOf held = "" ↔ (held.map (·.text)).filter (· ≠ "") = [] :=
    intercalate_eq_empty fun x hx => by simpa using (mem_filter.mp hx).2
  by_cases hc : c.text = ""
  · simp [textOf, joinText, hc]
  have htexts : textOf (held ++ [c]) =
      " ".intercalate ((held.map (·.text)).filter (· ≠ "") ++ [c.text]) := by
    simp [textOf, hc]
  by_cases hnone : textOf held = ""
  · rw [htexts, hempty.mp hnone]
    simp [joinText, hnone]
  · rw [htexts, intercalate_concat _ _ (mt hempty.mpr hnone)]
    show textOf held ++ " " ++ c.text = _
    simp [joinText, hc, hnone]

theorem Row.concat (h : Row id partials)
    (hname : segment.name = (id, UInt32.ofNat partials.length, false)) :
    Row id (partials ++ [segment]) := by
  have hrow : partials.map (·.name) = _ := h
  simp [Row, range_succ, hname, hrow]

theorem Row.id_eq (h : Row id partials) (hmem : segment ∈ partials) : segment.id = id := by
  have hname : segment.name ∈ partials.map (·.name) := mem_map_of_mem hmem
  rw [show partials.map (·.name) = _ from h] at hname
  obtain ⟨i, -, hi⟩ := mem_map.mp hname
  exact (Prod.mk.inj hi).1.symm

/-- The utterances that were closed, the partials of the open one and the chunks it has settled. -/
structure Inv (env : Env Seconds) (anchorMs : ℕ) (s : Session) (r : Received)
    (us : List Utterance) (partials : List TranscriptSegment) (pending : List Chunk) : Prop where
  start : openOrStart env s.normalizer.tracker = (env.nextId us.length,
    ⟨us.length + 1, some (env.nextId us.length), UInt32.ofNat partials.length⟩)
  anchor : s.normalizer.clock.anchorMs = anchorMs
  origin : r.originMs = anchorMs + s.normalizer.clock.connectionMs
  emitted : s.emitted = us.flatMap (·.segments) ++ partials
  ids : us.map (·.final.id) = (List.range us.length).map env.nextId
  whole : ∀ u ∈ us, u.Whole r.chunks
  row : Row (env.nextId us.length) partials
  spans : ∀ segment ∈ s.emitted, segment.startMs ≤ segment.endMs
  settled : r.chunks.filter (·.settles) = us.flatMap (·.held) ++ pending
  words : s.normalizer.committed.words = pending.flatMap (·.words)
  text : s.normalizer.committed.text = textOf pending
  open_ : s.normalizer.open_ = partials.getLast?
  holds : ∀ segment ∈ partials.getLast?, Holds r.chunks pending segment
  idle : partials = [] → pending = []

theorem Holds.append {held : List Chunk} (h : Holds chunks held segment) (more : List Chunk) :
    Holds (chunks ++ more) held segment := by
  obtain ⟨rest, hrest, hone⟩ := h
  exact ⟨rest, fun c hc => ⟨mem_append_left _ (hrest c hc).1, (hrest c hc).2⟩, hone⟩

section
variable (h : Inv env anchorMs s r us partials pending)
include h

theorem Inv.whole_append (more : List Chunk) : ∀ u ∈ us, u.Whole (r.chunks ++ more) :=
  fun u hu => { h.whole u hu with holds := (h.whole u hu).holds.append _ more }

/-- A final under the open name closes the utterance. -/
theorem Inv.close (segment : TranscriptSegment) (more held : List Chunk)
    (hname : segment.name = (env.nextId us.length, UInt32.ofNat partials.length, true))
    (hle : segment.startMs ≤ segment.endMs)
    (hsettled : (r.chunks ++ more).filter (·.settles) = us.flatMap (·.held) ++ held)
    (hholds : Holds (r.chunks ++ more) held segment) (lastEndMs : ℕ)
    (chunks : List (Bool × List Word)) :
    ∃ us', Inv env anchorMs
      ⟨⟨s.normalizer.clock, ⟨us.length + 1, none, 0⟩, lastEndMs, ⟨"", []⟩, none⟩,
        s.emitted ++ [segment], chunks⟩ ⟨r.originMs, r.chunks ++ more⟩ us' [] [] := by
  obtain ⟨hid, -⟩ := Prod.mk.inj hname
  refine ⟨us ++ [⟨partials, segment, held⟩], by simp [openOrStart], h.anchor, h.origin, ?_, ?_, ?_,
    rfl, ?_, ?_, rfl, rfl, rfl, nofun, fun _ => rfl⟩
  · simp [h.emitted, Utterance.segments]
  · simp [h.ids, range_succ, hid]
  · rw [forall_mem_append, forall_mem_singleton]
    exact ⟨h.whole_append more, hid ▸ h.row, hname.trans (by rw [hid]), hholds⟩
  · exact forall_mem_append.mpr ⟨h.spans, forall_mem_singleton.mpr hle⟩
  · simp [hsettled]

theorem finish_inv :
    ∃ us', Inv env anchorMs (s.next env .finish) (r.next env anchorMs .finish) us' [] [] := by
  simp only [Session.next, Received.next, step, heard, finish, toList_none, append_nil]
  split
  · next hopen =>
    rw [h.open_, getLast?_eq_none_iff] at hopen
    obtain rfl := h.idle hopen
    subst hopen
    exact ⟨us, by simpa using h⟩
  · next segment hopen =>
    rw [h.open_] at hopen
    have hmem := mem_of_getLast? hopen
    have hspan := h.spans segment (h.emitted ▸ mem_append_right _ hmem)
    have hclose := h.close
      { segment with revision := UInt32.ofNat partials.length, isFinal := true } [] pending
      (by rw [← h.row.id_eq hmem]; rfl) hspan (by simpa using h.settled)
      ((h.holds segment hopen).append _ []) s.normalizer.lastEndMs s.chunks
    simpa [nextFinal, h.start] using hclose

theorem reconnect_inv (legMs : ℕ) : ∃ us', Inv env anchorMs (s.next env (.reconnect legMs))
    (r.next env anchorMs (.reconnect legMs)) us' [] [] := by
  obtain ⟨us', h'⟩ := finish_inv h
  refine ⟨us', { h' with origin := ?_ }⟩
  rw [← h'.anchor]
  rfl

end

theorem spanFor_le (env : Env Seconds) (n : DeepgramNormalizer) (message : DeepgramResult Seconds)
    (words : List Word) (arrival : Option ℕ) :
    (spanFor env n message words arrival).1.startMs ≤
      (spanFor env n message words arrival).1.endMs := by
  unfold spanFor
  split <;> exact Nat.le_max_right _ _

/-- A segment that is built on the settled chunks and a further one. -/
theorem Inv.built (h : Inv env anchorMs s r us partials pending) (c : Chunk)
    {alternative : DeepgramAlternative Seconds} (htext : c.text = env.trim alternative.transcript)
    (name : String × UInt32) (isFinal : Bool) (span : TimeSpan) :
    let segment := buildSegment env s.normalizer name isFinal alternative c.words span
    segment.words = (pending ++ [c]).flatMap (·.words) ∧
      segment.text = textOf (pending ++ [c]) := by
  constructor
  · simp [buildSegment, commit, h.words]
  · rw [textOf_concat, ← h.text, htext]
    rfl

theorem frame_inv (h : Inv env anchorMs s r us partials pending)
    (message : DeepgramResult Seconds) (arrival : Option ℕ) :
    ∃ us partials pending, Inv env anchorMs (s.next env (.frame message arrival))
      (r.next env anchorMs (.frame message arrival)) us partials pending := by
  have hreceived := received_frame env s.normalizer.clock message
  rw [h.anchor, ← h.origin] at hreceived
  simp only [Session.next, Received.next, step, heard, pushMessageAt, hreceived]
  split
  · next hsilent =>
    exact ⟨us, partials, pending, by simpa [hsilent] using { h with }⟩
  rename_i alternative hspoken
  simp only [hspoken, map_some, toList_some]
  generalize hc : (⟨message.isFinal || message.speechFinal,
    alternative.words.map (normalizeWord env s.normalizer.clock),
    env.trim alternative.transcript⟩ : Chunk) = c
  have hwords : alternative.words.map (normalizeWord env s.normalizer.clock) = c.words := by
    rw [← hc]
  have htext : c.text = env.trim alternative.transcript := by rw [← hc]
  have hsettles : c.settles = (message.isFinal || message.speechFinal) := by rw [← hc]
  rw [hwords]
  have hspan := spanFor_le env s.normalizer message c.words arrival
  have hsettled : (r.chunks ++ [c]).filter (·.settles) =
      us.flatMap (·.held) ++ (pending ++ if c.settles then [c] else []) := by
    rw [filter_append, h.settled, append_assoc]
    cases hb : c.settles <;> simp [hb]
  generalize hname : (env.nextId us.length, UInt32.ofNat partials.length) = name
  generalize hbuilt : spanFor env s.normalizer message c.words arrival = timing at hspan ⊢
  cases hspeech : message.speechFinal with
  | true =>
    rw [hsettles, hspeech, Bool.or_true, if_pos rfl] at hsettled
    obtain ⟨hwords', htext'⟩ := h.built c htext name true timing.1
    simp only [nextFinal, h.start, hname]
    obtain ⟨us', hclose⟩ := h.close
      (buildSegment env s.normalizer name true alternative c.words timing.1) [c] (pending ++ [c])
      (by rw [← hname]; rfl) hspan hsettled
      ⟨[], nofun, by simp, by simpa using hwords', by simpa using htext'⟩ timing.2 _
    exact ⟨us', [], [], hclose⟩
  | false =>
    obtain ⟨hwords', htext'⟩ := h.built c htext name false timing.1
    rw [hspeech, Bool.or_false] at hsettles
    simp only [nextPartial, h.start, hname, Bool.false_eq_true, if_false]
    generalize hsegment : buildSegment env s.normalizer name false alternative c.words timing.1 =
      segment at hwords' htext' ⊢
    have hrow : segment.name = (env.nextId us.length, UInt32.ofNat partials.length, false) := by
      rw [← hsegment, ← hname]
      rfl
    refine ⟨us, partials ++ [segment], pending ++ if c.settles then [c] else [], ?_, h.anchor,
      h.origin, ?_, h.ids, h.whole_append _, h.row.concat hrow, ?_, hsettled, ?_, ?_, ?_, ?_,
      by simp⟩
    · simp [openOrStart]
    · simp [h.emitted]
    · refine forall_mem_append.mpr ⟨h.spans, forall_mem_singleton.mpr ?_⟩
      rw [← hsegment]
      exact hspan
    · rw [hsettles]
      cases message.isFinal <;> simp [commit, h.words]
    · rw [hsettles]
      cases message.isFinal with
      | true => simp [commit, textOf_concat, h.text, htext]
      | false => simp [h.text]
    · simp
    · rw [getLast?_concat]
      rintro _ ⟨⟩
      cases hb : c.settles with
      | true => exact ⟨[], nofun, by simp, by simpa using hwords', by simpa using htext'⟩
      | false => exact ⟨[c], by simp [hb], by simp, by simpa using hwords', by simpa using htext'⟩

theorem next_inv (h : Inv env anchorMs s r us partials pending) (e : Event Seconds) :
    ∃ us partials pending,
      Inv env anchorMs (s.next env e) (r.next env anchorMs e) us partials pending := by
  cases e with
  | frame message arrival => exact frame_inv h message arrival
  | reconnect legMs =>
    obtain ⟨us', h'⟩ := reconnect_inv h legMs
    exact ⟨us', [], [], h'⟩
  | finish =>
    obtain ⟨us', h'⟩ := finish_inv h
    exact ⟨us', [], [], h'⟩

theorem events_inv (h : Inv env anchorMs s r us partials pending) (events : List (Event Seconds)) :
    ∃ us partials pending, Inv env anchorMs (events.foldl (·.next env) s)
      (events.foldl (Received.next env anchorMs) r) us partials pending := by
  induction events generalizing s r us partials pending with
  | nil => exact ⟨us, partials, pending, h⟩
  | cons e events ih =>
    obtain ⟨us', partials', pending', h'⟩ := next_inv h e
    exact ih h'

theorem session_inv (env : Env Seconds) (anchorMs : ℕ) (events : List (Event Seconds)) :
    ∃ us partials pending, Inv env anchorMs (session env anchorMs events)
      (events.foldl (Received.next env anchorMs) ⟨anchorMs, []⟩) us partials pending :=
  have hstart : Inv env anchorMs ⟨anchoredAt anchorMs, [], []⟩ ⟨anchorMs, []⟩ [] [] [] :=
    ⟨rfl, rfl, rfl, rfl, rfl, nofun, rfl, nofun, rfl, rfl, rfl, rfl, nofun, fun _ => rfl⟩
  events_inv hstart events

/-- A session that is finished is a row of utterances under different ids. Each of them is a row
    of revisions 0, 1, 2, … with one final at its end. The words and the texts of the frames that
    settle them are in the finals as they were received, each in one of them and in the order of
    the frames. No segment ends before it starts, and nothing stays open. -/
theorem session_normalised (env : Env Seconds) (anchorMs : ℕ) (events : List (Event Seconds)) :
    let s := session env anchorMs (events ++ [.finish])
    let chunks := received env anchorMs events
    (∃ us : List Utterance, s.emitted = us.flatMap (·.segments) ∧ (us.map (·.final.id)).Nodup ∧
      (∀ u ∈ us, u.Whole chunks) ∧ chunks.filter (·.settles) = us.flatMap (·.held)) ∧
    (∀ segment ∈ s.emitted, segment.startMs ≤ segment.endMs) ∧
    hasOpenUtterance s.normalizer = false := by
  intro s chunks
  obtain ⟨us, partials, pending, h⟩ := session_inv env anchorMs events
  obtain ⟨us', h'⟩ := finish_inv h
  have hs : s = (session env anchorMs events).next env .finish := foldl_concat ..
  rw [← hs] at h'
  have hsettled : chunks.filter (·.settles) = us'.flatMap (·.held) ++ [] := h'.settled
  rw [append_nil] at hsettled
  refine ⟨⟨us', by simpa using h'.emitted, ?_, h'.whole, hsettled⟩, h'.spans, ?_⟩
  · rw [h'.ids]
    exact Nodup.map env.nextId_injective nodup_range
  · simp [hasOpenUtterance, Committed.isEmpty, h'.open_, h'.words, h'.text, textOf]

/-- Words as they are, times in milliseconds. -/
def plainEnv : Env ℕ where
  secondsToMs ms := ms
  trim text := text
  nextId k := String.ofList (replicate k 'u')
  nextId_injective a b h := by simpa using congrArg String.length h

/-- A frame that settles a word, or says nothing. -/
def frameOf (words : List String) (start : ℕ) (speechFinal : Bool) : DeepgramResult ℕ :=
  ⟨none, some [⟨"", words.map (⟨·, none, start, start⟩)⟩], none, none, true, speechFinal⟩

example : (session plainEnv 0 [.frame ⟨none, some [⟨"so", []⟩], none, none, false, false⟩ none,
    .frame ⟨none, some [⟨"so it", [⟨"it", some "It", 1, 2⟩]⟩], none, none, true, false⟩ none,
    .reconnect 9, .frame (frameOf ["is"] 3 true) none, .finish]).emitted.map
      (fun segment => (segment.name, segment.text, segment.words.map (·.text))) =
    [(("", 0, false), "so", []), (("", 1, false), "so it", ["It"]),
      (("", 2, true), "so it", ["It"]), (("u", 0, true), "", ["is"])] := by
  decide

/-! ## Speech-final frames -/

/-- What a normaliser goes on to hear and to emit. -/
def resumed (env : Env Seconds) (n : DeepgramNormalizer) (events : List (Event Seconds)) :
    Session :=
  events.foldl (·.next env) ⟨n, [], []⟩

/-- The words that were heard, in the order of their frames. -/
def Session.words (s : Session) : List Word := s.chunks.flatMap (·.2)

/-- Nothing the session holds or has emitted is of words it did not hear. -/
structure Own (s : Session) : Prop where
  committed : s.normalizer.committed.words <+ s.words
  open_ : ∀ segment ∈ s.normalizer.open_, segment.words <+ s.words
  emitted : ∀ segment ∈ s.emitted, segment.words <+ s.words

theorem Own.frame (h : Own s) (message : DeepgramResult Seconds) (arrival : Option ℕ) :
    Own (s.next env (.frame message arrival)) := by
  simp only [Session.next, step, heard, pushMessageAt]
  split
  · rename_i hsilent
    simpa [hsilent] using h
  rename_i alternative hspoken
  simp only [hspoken, map_some, toList_some]
  generalize alternative.words.map (normalizeWord env s.normalizer.clock) = words
  have hwords (n : DeepgramNormalizer) (out : List TranscriptSegment) (b : Bool) :
      Session.words ⟨n, out, s.chunks ++ [(b, words)]⟩ = s.words ++ words := by
    simp [Session.words]
  have hgrown : s.normalizer.committed.words ++ words <+ s.words ++ words :=
    h.committed.append (Sublist.refl words)
  have hkept : s.words <+ s.words ++ words := sublist_append_left _ _
  split
  · refine ⟨nil_sublist _, nofun, ?_⟩
    simp only [hwords, mem_append, toList_some, mem_singleton]
    rintro segment (hold | rfl)
    · exact (h.emitted segment hold).trans hkept
    · exact hgrown
  · refine ⟨?_, ?_, ?_⟩
    · rw [hwords]
      dsimp only
      split
      · exact hgrown
      · exact h.committed.trans hkept
    · rintro segment ⟨⟩
      rw [hwords]
      exact hgrown
    · simp only [hwords, mem_append, toList_some, mem_singleton]
      rintro segment (hold | rfl)
      · exact (h.emitted segment hold).trans hkept
      · exact hgrown

theorem Own.finish (h : Own s) : Own (s.next env .finish) := by
  simp only [Session.next, step, heard, Stt.finish, toList_none, append_nil]
  split
  · simpa using h
  · rename_i segment hopen
    refine ⟨nil_sublist _, nofun, ?_⟩
    simp only [mem_append, toList_some, mem_singleton]
    rintro segment' (hold | rfl)
    · exact h.emitted segment' hold
    · exact h.open_ segment hopen

theorem Own.next (h : Own s) (e : Event Seconds) : Own (s.next env e) := by
  have hfinish : Own (s.next env .finish) := h.finish
  cases e with
  | frame message arrival => exact h.frame message arrival
  | reconnect => exact { hfinish with }
  | finish => exact hfinish

/-- A closed normaliser goes on with words of its own only. -/
theorem resumed_own (h : hasOpenUtterance n = false) (events : List (Event Seconds)) :
    Own (resumed env n events) := by
  obtain ⟨hempty, hopen⟩ : (n.committed.text = "" ∧ n.committed.words = []) ∧ n.open_ = none := by
    simpa [hasOpenUtterance, Committed.isEmpty] using h
  refine foldlRecOn (motive := Own) events _ ⟨?_, ?_, nofun⟩ fun s hs e _ => hs.next e
  · rw [hempty.2]
    exact nil_sublist _
  · rw [hopen]
    exact nofun

/-- A speech-final frame closes what is open, and no later segment has words from before it,
    exactly if it says something or finds nothing open: a frame that says nothing is dropped with
    its mark. -/
theorem speech_final_closes_iff (env : Env Seconds) (anchorMs : ℕ) (past : List (Event Seconds))
    (message : DeepgramResult Seconds) (arrival : Option ℕ) (hfinal : message.speechFinal = true) :
    let n := (session env anchorMs past).normalizer
    let n' := (pushMessageAt env n message arrival).1
    (hasOpenUtterance n' = false ∧ ∀ events, ∀ segment ∈ (resumed env n' events).emitted,
        segment.words <+ (resumed env n' events).words) ↔
      (spoken env message).isSome ∨ hasOpenUtterance n = false := by
  intro n n'
  have hclosed : hasOpenUtterance n' = false ↔
      (spoken env message).isSome ∨ hasOpenUtterance n = false := by
    simp only [n', pushMessageAt, hfinal, if_true]
    cases spoken env message with
    | none => simp
    | some alternative => simp [hasOpenUtterance, Committed.isEmpty]
  rw [← hclosed]
  exact ⟨fun h => h.1, fun h => ⟨h, fun events => (resumed_own n' h events).emitted⟩⟩

theorem speech_final_closes_word :
    let n := (session plainEnv 0 [.frame (frameOf ["yes"] 1 false) none]).normalizer
    hasOpenUtterance n = true ∧
      hasOpenUtterance (pushMessageAt plainEnv n (frameOf ["indeed"] 2 true) none).1 = false :=
  ⟨rfl, ((speech_final_closes_iff plainEnv 0 [.frame (frameOf ["yes"] 1 false) none]
    (frameOf ["indeed"] 2 true) none rfl).mpr (.inl rfl)).1⟩

/-- A mark that comes without words leaves its utterance open: the next one is put into the same
    final. -/
theorem silent_mark_ignored :
    (session plainEnv 0 [.frame (frameOf ["before"] 1 false) none, .frame (frameOf [] 2 true) none,
      .frame (frameOf ["after"] 3 true) none]).emitted.map
        (fun segment => (segment.isFinal, segment.words.map (·.text))) =
      [(false, ["before"]), (true, ["before", "after"])] := by
  decide

end FlyOnTheWall.Stt
