/-
  The words of overlapping windows put together, each spoken word once, and the words of both
  channels grouped into turns.

  * `mergeWindows`: two consecutive windows are reconciled only where they overlap. If the word
    times of one of them were estimated, the two are joined by text alone (`joinByText`);
    otherwise by text and time (`joinByTime`).
  * `buildTurns`: turns of both channels in time order.

  Unicode's white space and lower case come from the standard library of the source's language
  and are parameters.
-/
import FlyOnTheWall.PostPass.Windows
import Mathlib.Data.List.Basic
import Mathlib.Data.Prod.Lex

namespace FlyOnTheWall.PostPass

structure Unicode where
  isWhitespace : Char → Bool
  toLowercase : String → String

/-- `estimated`: the times were spread over the window, not reported by the engine. -/
structure TimedWord where
  text : String
  startMs : ℕ
  endMs : ℕ
  estimated : Bool
  deriving DecidableEq, Repr

def TimedWord.new (text : String) (startMs endMs : ℕ) : TimedWord :=
  ⟨text, startMs, max endMs startMs, false⟩

/-- The constructor `TimedWord::estimated` of the source. -/
def TimedWord.guessed (text : String) (startMs endMs : ℕ) : TimedWord :=
  { TimedWord.new text startMs endMs with estimated := true }

def TimedWord.mid (w : TimedWord) : ℕ := w.startMs + (w.endMs - w.startMs) / 2

structure WindowWords where
  startMs : ℕ
  endMs : ℕ
  words : List TimedWord
  deriving DecidableEq

def WindowWords.estimated (w : WindowWords) : Bool := w.words.any (·.estimated)

def edgeGuardMs : ℕ := 250
def maxMatchWords : ℕ := 8
def matchToleranceMs : ℕ := 600

def isAsciiPunctuation (c : Char) : Bool :=
  let n := c.toNat
  (33 ≤ n && n ≤ 47) || (58 ≤ n && n ≤ 64) || (91 ≤ n && n ≤ 96) || (123 ≤ n && n ≤ 126)

variable (p : Char → Bool) (s : String)

def trimStart : String := String.ofList (s.toList.dropWhile p)

def trimEnd : String :=
  String.ofList (s.toList.reverse.dropWhile p).reverse

def trimMatches : String := trimEnd p (trimStart p s)

variable (u : Unicode)

/-- Lowercased, without surrounding punctuation. -/
def key (word : String) : String :=
  u.toLowercase (trimMatches (fun c => isAsciiPunctuation c || u.isWhitespace c || c == '…') word)

/-- The longest run of at most `limit` that passes. -/
def longestRun (limit : ℕ) (passes : ℕ → Bool) : Option ℕ :=
  ((List.range limit).reverse.map (· + 1)).find? passes

/-- The words that end after `start`, at the end of what was kept. -/
def tailFrom (start : ℕ) (out : List TimedWord) : List TimedWord :=
  (out.reverse.takeWhile fun w => start < w.endMs).reverse

/-- The longest run that ends `tail` and starts `head`, word for word and close in time. -/
def sharedRun (tail head : List TimedWord) : Option ℕ :=
  longestRun (min (min maxMatchWords tail.length) head.length) fun n =>
    ((tail.drop (tail.length - n)).zip (head.take n)).all fun (a, b) =>
      key u a.text == key u b.text &&
        (a.startMs - b.startMs) + (b.startMs - a.startMs) ≤ matchToleranceMs

variable (overlapStart overlapEnd : ℕ) (out words : List TimedWord)

/-- Join by the run of words that ends the earlier window and starts the later one, by text
    alone; else cut both at the middle of the overlap. -/
def joinByText : List TimedWord :=
  let tail := (out.drop (out.length - maxMatchWords)).map (key u ·.text)
  let head := (words.take maxMatchWords).map (key u ·.text)
  match longestRun (min tail.length head.length) fun n =>
      tail.drop (tail.length - n) == head.take n with
  | some n => out ++ words.drop n
  | none =>
    let cut := overlapStart + (overlapEnd - overlapStart) / 2
    (out.reverse.dropWhile fun w => overlapStart < w.endMs && cut ≤ w.mid).reverse ++
      words.filter fun w => overlapEnd ≤ w.startMs || cut ≤ w.mid

/-- Join by text and time. -/
def joinByTime : List TimedWord :=
  let kept := tailFrom overlapStart out
  -- words cut off by the later window's start, which the earlier one kept
  let words := words.filter fun w =>
    overlapStart + edgeGuardMs < w.startMs ||
      !kept.any fun k => k.startMs < w.endMs && w.startMs < k.endMs
  let head := words.takeWhile fun w => w.startMs < overlapEnd
  match sharedRun u kept head with
  | some n => out ++ words.drop n
  | none =>
    let cut := overlapStart + (overlapEnd - overlapStart) / 2
    out.take (out.length - kept.length + (kept.filter fun w => w.mid < cut).length) ++
      words.drop (head.filter fun w => w.mid < cut).length

/-- A window's words, without those its end cut off if the next window hears them whole. -/
def heardWhole (window : WindowWords) (next : Option WindowWords) : List TimedWord :=
  let words := window.words.filter fun w => key u w.text != ""
  match next with
  | some next =>
    if next.startMs < window.endMs && !window.estimated && !next.estimated then
      words.filter fun w => w.endMs + edgeGuardMs < window.endMs
    else words
  | none => words

/-- Put `words` of `window` behind what the windows before it gave. -/
def joinWindow (prev : Option WindowWords) (window : WindowWords) (out words : List TimedWord) :
    List TimedWord :=
  match prev with
  | none => out ++ words
  | some prev =>
    if prev.endMs ≤ window.startMs then out ++ words
    else if window.estimated || prev.estimated then joinByText u window.startMs prev.endMs out words
    else joinByTime u window.startMs prev.endMs out words

def mergeFrom (prev : Option WindowWords) (out : List TimedWord) : List WindowWords → List TimedWord
  | [] => out
  | window :: rest =>
    mergeFrom (some window) (joinWindow u prev window out (heardWhole u window rest.head?)) rest

def mergeWindows (windows : List WindowWords) : List TimedWord := mergeFrom u none [] windows

/-! ## Turns -/

structure SpeakerSpan where
  startMs : ℕ
  endMs : ℕ
  speaker : String
  deriving DecidableEq

structure Turn where
  channel : Channel
  speaker : Option String
  startMs : ℕ
  endMs : ℕ
  words : List (TimedWord × Option String)
  deriving DecidableEq

def mergeGapMs : ℕ := 350
def shortGapMs : ℕ := 1500
def shortVisible : ℕ := 8
def longTurnMs : ℕ := 20000
def nearestSpeakerMs : ℕ := 1000
def spanGapMs : ℕ := 250

/-- A space between words unless the next one is punctuation; 34 is the double quote. -/
def joinWord (out word : String) : String :=
  let word := trimMatches u.isWhitespace word
  if word == "" then out
  else
    let glued := match word.toList.head? with
      | some c => isAsciiPunctuation c && c != '(' && c.toNat != 34
      | none => false
    if out != "" && !glued then out ++ " " ++ word else out ++ word

def Turn.text (turn : Turn) : String :=
  turn.words.foldl (fun out w => joinWord u out w.1.text) ""

def visible (text : String) : ℕ := (text.toList.filter fun c => !u.isWhitespace c).length

def endsSentence (word : String) : Bool :=
  match (trimEnd (fun c => c.toNat == 34 || c.toNat == 39 || c == ')') word).toList.getLast? with
  | some c => c == '.' || c == '?' || c == '!'
  | none => false

/-- Stable sort by a number, as `sort_by_key`. -/
def sortByKey {α : Type} (f : α → ℕ) (xs : List α) : List α :=
  xs.mergeSort fun a b => decide (f a ≤ f b)

/-- Stable sort by two numbers, the first one first. -/
def sortByKeys {α : Type} (f g : α → ℕ) (xs : List α) : List α :=
  sortByKey f (sortByKey g xs)

/-- Join a span to the last one, if it is of the same speaker and close. -/
def joinSpan (out : List SpeakerSpan) (span : SpeakerSpan) : List SpeakerSpan :=
  match out.getLast? with
  | some last =>
    if last.speaker == span.speaker && span.startMs ≤ last.endMs + spanGapMs then
      out.dropLast ++ [{ last with endMs := max last.endMs span.endMs }]
    else out ++ [span]
  | none => [span]

def joinSpans (spans : List SpeakerSpan) : List SpeakerSpan :=
  (sortByKeys (·.startMs) (·.endMs) spans).foldl joinSpan []

/-- The first element that no later one beats. -/
def bestBy {α : Type} (better : α → α → Bool) (xs : List α) : Option α :=
  xs.foldl (fun best x =>
    match best with
    | none => some x
    | some b => if better x b then some x else some b) none

def speakerAt (spans : List SpeakerSpan) (start stop : ℕ) : Option String :=
  let overlap (s : SpeakerSpan) : ℕ := min s.endMs stop - max s.startMs start
  let distance (s : SpeakerSpan) : ℕ :=
    if s.endMs ≤ start then start - s.endMs else s.startMs - stop
  -- of equal keys `max_by_key` takes the last, `min_by_key` the first
  match bestBy (fun s b =>
    overlap b < overlap s || (overlap b == overlap s && s.startMs ≤ b.startMs))
      (spans.filter fun s => 0 < overlap s) with
  | some best => some best.speaker
  | none =>
    (bestBy (fun s b =>
      distance s < distance b || (distance s == distance b && s.startMs < b.startMs))
      (spans.filter fun s => distance s ≤ nearestSpeakerMs)).map (·.speaker)

/-- Whether the running turn takes the next word. -/
def Turn.takes (turn : Turn) (other : List ℕ) (word : TimedWord) (speaker : Option String) : Bool :=
  let interrupted := match (other.dropWhile fun t => t ≤ turn.endMs).head? with
    | some t => t < word.startMs
    | none => false
  let gap := word.startMs - turn.endMs
  let short := visible u (turn.text u) < shortVisible
  let joins := gap ≤ mergeGapMs || (gap ≤ shortGapMs && short)
  let long := match turn.words.getLast? with
    | some last => longTurnMs ≤ turn.endMs - turn.startMs && endsSentence last.1.text
    | none => false
  turn.speaker == speaker && joins && !long && !interrupted

def addWord (channel : Channel) (other : List ℕ) (turns : List Turn)
    (word : TimedWord × Option String) : List Turn :=
  let fresh : Turn := ⟨channel, word.2, word.1.startMs, word.1.endMs, [word]⟩
  match turns.getLast? with
  | some turn =>
    if turn.takes u other word.1 word.2 then
      turns.dropLast ++
        [{ turn with endMs := max turn.endMs word.1.endMs, words := turn.words ++ [word] }]
    else turns ++ [fresh]
  | none => [fresh]

def channelTurns (channel : Channel) (words : List (TimedWord × Option String)) (other : List ℕ) :
    List Turn :=
  words.foldl (addWord u channel other) []

/-- Each system word with its speaker: that of its span, else that of the word before. -/
def labelWords (spans : Option (List SpeakerSpan)) :
    Option String → List TimedWord → List (TimedWord × Option String)
  | _, [] => []
  | previous, w :: rest =>
    let speaker := spans.bind fun spans => (speakerAt spans w.startMs w.endMs).or previous
    (w, speaker) :: labelWords spans speaker rest

def wordStarts (words : List TimedWord) : List ℕ := sortByKey id (words.map (·.startMs))

def buildTurns (mic system : List TimedWord) (systemSpeakers : Option (List SpeakerSpan)) :
    List Turn :=
  let turns :=
    channelTurns u .mic (mic.map fun w => (w, some "me")) (wordStarts system) ++
      channelTurns u .system (labelWords systemSpeakers none system) (wordStarts mic)
  sortByKey (·.startMs)
    (sortByKeys (fun t => if t.channel = .system then 1 else 0) (·.endMs) turns)

end FlyOnTheWall.PostPass
