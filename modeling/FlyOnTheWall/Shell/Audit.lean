/-
  The local audit log: one JSON object a line, appended and synced (fotwd, `audit.rs`).

  The file is its bytes. A call of `record_at` either returns, with its whole line
  durable, or ends early (a crash, a failed write) with any number of the line's bytes at the
  end of the file. `read` decodes the whole file as UTF-8 before it looks at a line. Nothing
  ends a torn line before the next event is appended behind it, and a line torn inside a
  character leaves a file that is not UTF-8. A log that does not exist is read as an empty one.
-/
import Mathlib.Data.List.Basic

namespace FlyOnTheWall.Audit
open List

inductive AuditKind where
  | sessionStart (origin : String) (detectedApp : Option String) (jurisdictionWarning : String)
      (acknowledgedAllParty : Bool)
  | sessionEnd (session : String) (durationMs : ℕ)
  | detectionDeclined (app answer : String)
  | transcriptPushed (meeting repo path commit : String)
  deriving DecidableEq

structure AuditEvent where
  atUnixMs : ℕ
  kind : AuditKind
  deriving DecidableEq

/-- `serde_json::to_string` and `serde_json::from_str` at the events. -/
structure Json where
  toText : AuditEvent → List Char
  fromText : List Char → Option AuditEvent

/-- How a call of `record_at` ended: with `Ok`, or early with the first bytes of its line in
    the file. -/
inductive Call where
  | returned (event : AuditEvent)
  | cut (event : AuditEvent) (bytes : ℕ)

def Call.event : Call → AuditEvent
  | .returned event | .cut event _ => event

inductive LogError where
  | invalidData
  deriving DecidableEq

def dropReturn : List Char → List Char
  | '\r' :: line => line
  | line => line

/-- The lines of a text that goes on behind `line`, which is held in reverse. A carriage return
    before a terminator belongs to it, and the last line need not be terminated. -/
def linesFrom (line : List Char) : List Char → List (List Char)
  | [] => if line = [] then [] else [line.reverse]
  | c :: rest =>
    if c = '\n' then (dropReturn line).reverse :: linesFrom [] rest
    else linesFrom (c :: line) rest

/-- `str::lines`. -/
def lines (text : List Char) : List (List Char) :=
  linesFrom [] text

def utf8 (text : List Char) : ByteArray :=
  (String.ofList text).toUTF8

variable (json : Json)

variable (file : ByteArray) {text : List Char}

def recordAt : Call → ByteArray
  | .returned event => file ++ utf8 (json.toText event ++ ['\n'])
  | .cut event bytes => file ++ (utf8 (json.toText event ++ ['\n'])).extract 0 bytes

/-- The events a text returns: lines that do not parse are skipped. -/
def events (text : List Char) : List AuditEvent :=
  (lines text).filterMap json.fromText

def read : Except LogError (List AuditEvent) :=
  match file.utf8Decode? with
  | none => .error .invalidData
  | some text => .ok (events json text.toList)

def run (calls : List Call) : ByteArray :=
  calls.foldl (recordAt json) ByteArray.empty

/-- What a call adds to the log. A call that ended early may have left its object whole. -/
def added : Call → List AuditEvent
  | .returned event => [event]
  | .cut event bytes => if (utf8 (json.toText event)).size ≤ bytes then [event] else []

theorem utf8_eq (text : List Char) : utf8 text = text.utf8Encode := by
  simp [utf8]

theorem utf8Encode_injective {text text' : List Char} (h : text.utf8Encode = text'.utf8Encode) :
    text = text' := by
  have hdecoded := congrArg ByteArray.utf8Decode? h
  simpa [utf8Decode?_utf8Encode] using hdecoded

/-! ## Lines -/

theorem linesFrom_line (line text more : List Char) :
    linesFrom line (text ++ '\n' :: more) = linesFrom line (text ++ ['\n']) ++ lines more := by
  induction text generalizing line with
  | nil => simp [linesFrom, lines]
  | cons c text ih =>
    simp only [cons_append, linesFrom]
    split
    · rw [ih, cons_append]
    · exact ih _

theorem linesFrom_of_notMem {line text : List Char} (h : '\n' ∉ text) (more : List Char) :
    linesFrom line (text ++ more) = linesFrom (text.reverse ++ line) more := by
  induction text generalizing line with
  | nil => rfl
  | cons c text ih =>
    rw [mem_cons, not_or] at h
    rw [cons_append, linesFrom, if_neg (Ne.symm h.1), ih h.2]
    simp

theorem dropReturn_eq {line : List Char} (h : '\r' ∉ line) : dropReturn line = line := by
  unfold dropReturn
  split
  · exact absurd mem_cons_self h
  · rfl

/-- What stands behind a finished line is read on its own. -/
theorem lines_append (h : text = [] ∨ text.getLast? = some '\n')
    (more : List Char) : lines (text ++ more) = lines text ++ lines more := by
  rcases h with rfl | h
  · rfl
  · obtain ⟨front, rfl⟩ := getLast?_eq_some_iff.mp h
    rw [append_assoc]
    exact linesFrom_line [] front more

theorem lines_of_notMem (h : '\n' ∉ text) : lines text = if text = [] then [] else [text] := by
  have hlines := @linesFrom_of_notMem [] text h []
  rw [append_nil] at hlines
  rw [lines, hlines]
  simp [linesFrom]

theorem lines_terminated (h : '\n' ∉ text) (hr : '\r' ∉ text) :
    lines (text ++ ['\n']) = [text] := by
  rw [lines, linesFrom_of_notMem h]
  simp [linesFrom, dropReturn_eq, hr]

/-! ## Histories of calls -/

/-- What is assumed of the JSON text of an event: it is one line, it parses back, and no proper
    beginning of it parses. -/
structure Json.Writes (event : AuditEvent) : Prop where
  nonempty : json.toText event ≠ []
  lf : '\n' ∉ json.toText event
  cr : '\r' ∉ json.toText event
  back : json.fromText (json.toText event) = some event
  torn : ∀ text, text <+: json.toText event → text ≠ json.toText event →
    json.fromText text = none

/-- The condition on a call and on the file it finds: the last line of the file is finished, and
    if the call ends early, it does not end inside a character. -/
def Meets (call : Call) : Prop :=
  (∃ text : List Char, file = text.utf8Encode ∧ (text = [] ∨ text.getLast? = some '\n')) ∧
  ∀ event bytes, call = .cut event bytes →
    ((utf8 (json.toText event ++ ['\n'])).extract 0 bytes).IsValidUTF8

def AllMeet (file : ByteArray) : List Call → Prop
  | [] => True
  | call :: calls => Meets json file call ∧ AllMeet (recordAt json file call) calls

variable {json} {event : AuditEvent} {file : ByteArray} {found : List AuditEvent} {call : Call}

theorem events_line (h : json.Writes event) :
    events json (json.toText event ++ ['\n']) = [event] := by
  rw [events, lines_terminated h.lf h.cr]
  simp [h.back]

/-- A beginning of an object's text returns the event if it is the whole text. -/
theorem events_torn (h : json.Writes event) (htext : text <+: json.toText event) :
    events json text = if text = json.toText event then [event] else [] := by
  have hlf : '\n' ∉ text := fun hc => h.lf (htext.subset hc)
  rw [events, lines_of_notMem hlf]
  split
  · next hnil =>
    rw [hnil, if_neg h.nonempty.symm]
    rfl
  · split
    · next heq =>
      simp [heq, h.back]
    · next hne =>
      simp [h.torn text htext hne]

/-- The file is the text of a log that returns these events. -/
def Holds (json : Json) (file : ByteArray) (found : List AuditEvent) : Prop :=
  ∃ text : List Char, file = text.utf8Encode ∧ events json text = found

theorem read_of_holds (h : Holds json file found) : read json file = .ok found := by
  obtain ⟨text, rfl, rfl⟩ := h
  rw [read, utf8Decode?_utf8Encode]

theorem Holds.append (h : Holds json file found) (hmeets : Meets json file call)
    (more : List Char) : Holds json (file ++ more.utf8Encode) (found ++ events json more) := by
  obtain ⟨text, hfile, rfl⟩ := h
  obtain ⟨text', hfile', hend⟩ := hmeets.1
  obtain rfl : text = text' := utf8Encode_injective (hfile.symm.trans hfile')
  refine ⟨text ++ more, by rw [utf8Encode_append, hfile], ?_⟩
  simp only [events, lines_append hend, filterMap_append]

/-- A cut between characters leaves a beginning of the line, and with it the event only if the
    object is whole. -/
theorem events_cut (h : json.Writes event) {bytes : ℕ}
    (hcut : (utf8 (json.toText event ++ ['\n'])).extract 0 bytes = text.utf8Encode) :
    events json text = added json (.cut event bytes) := by
  rw [utf8_eq] at hcut
  have hsize := congrArg ByteArray.size hcut
  rw [ByteArray.size_extract, utf8Encode_append, ByteArray.size_append] at hsize
  have hline : text <+: json.toText event ++ ['\n'] := by
    have hparts : ∀ line : ByteArray, line.extract 0 bytes ++ line.extract bytes line.size = line :=
      by simp
    replace hparts := hparts (json.toText event ++ ['\n']).utf8Encode
    rw [hcut] at hparts
    exact isPrefix_of_utf8Encode_append_eq_utf8Encode _ hparts
  simp only [added, utf8_eq]
  rcases prefix_concat_iff.mp hline with rfl | htorn
  · rw [events_line h, if_pos]
    rw [utf8Encode_append, ByteArray.size_append] at hsize
    omega
  · rw [events_torn h htorn]
    refine if_congr ⟨?_, fun hbytes => ?_⟩ rfl rfl
    · rintro rfl
      omega
    · obtain ⟨rest, hrest⟩ := htorn
      have hrestSize := congrArg (·.utf8Encode.size) hrest
      simp only [utf8Encode_append, ByteArray.size_append] at hrestSize
      have hnone : rest.utf8Encode.size = 0 := by omega
      rw [ByteArray.size_eq_zero_iff, utf8Encode_eq_empty] at hnone
      rw [← hrest, hnone, append_nil]

theorem Holds.recordAt (h : Holds json file found)
    (hwrites : json.Writes call.event) (hmeets : Meets json file call) :
    Holds json (recordAt json file call) (found ++ added json call) := by
  cases call with
  | returned event =>
    have happend := h.append hmeets (json.toText event ++ ['\n'])
    rwa [@events_line json event hwrites, ← utf8_eq] at happend
  | cut event bytes =>
    obtain ⟨text, hcut⟩ := hmeets.2 event bytes rfl
    have happend := h.append hmeets text
    rwa [events_cut hwrites hcut, ← hcut] at happend

theorem Holds.run {calls : List Call} (h : Holds json file found)
    (hwrites : ∀ call ∈ calls, json.Writes call.event) (hmeets : AllMeet json file calls) :
    Holds json (calls.foldl (Audit.recordAt json) file) (found ++ calls.flatMap (added json)) := by
  induction calls generalizing file found with
  | nil => simpa using h
  | cons call calls ih =>
    have hstep := h.recordAt (hwrites call mem_cons_self) hmeets.1
    have hrun := ih hstep (fun c hc => hwrites c (mem_cons_of_mem call hc)) hmeets.2
    rwa [append_assoc, ← flatMap_cons] at hrun

/-- If every call of a history finds the last line finished and none ends inside a character,
    every read returns the events of the calls that returned, each once and in order, and
    besides them only objects that an early end left whole. -/
theorem read_run_of_allMeet (json : Json) (calls : List Call)
    (hwrites : ∀ call ∈ calls, json.Writes call.event)
    (hmeets : AllMeet json ByteArray.empty calls) :
    read json (run json calls) = .ok (calls.flatMap (added json)) := by
  have hempty : Holds json ByteArray.empty [] := ⟨[], utf8Encode_nil.symm, rfl⟩
  exact read_of_holds (hempty.run hwrites hmeets)

def sampleEvent : AuditEvent :=
  ⟨5, .detectionDeclined "Zoé" "not_now"⟩

def sampleText : List Char :=
  ("\x7b\"at_unix_ms\":5,\"event\":\"detection_declined\",\"app\":\"Zoé\"," ++
    "\"answer\":\"not_now\"\x7d").toList

/-- The JSON of the one event, as `serde_json` writes and reads it. -/
def sampleJson : Json where
  toText _ := sampleText
  fromText text := if text = sampleText then some sampleEvent else none

theorem read_run_returned_cut :
    read sampleJson (run sampleJson [.returned sampleEvent, .cut sampleEvent 1]) =
      .ok [sampleEvent] := by
  have hwrites : sampleJson.Writes sampleEvent := {
    nonempty := by decide
    lf := by decide
    cr := by decide
    back := by decide
    torn := fun text _ hne => if_neg hne }
  have hmeets : AllMeet sampleJson ByteArray.empty [.returned sampleEvent, .cut sampleEvent 1] := by
    refine ⟨⟨⟨[], rfl, .inl rfl⟩, ?_⟩, ⟨⟨sampleText ++ ['\n'], ?_, .inr (by decide)⟩, ?_⟩, trivial⟩
    · rintro _ _ ⟨⟩
    · exact ByteArray.empty_append.trans (utf8_eq _)
    · rintro _ _ ⟨rfl, rfl⟩
      exact ⟨['\x7b'], by decide⟩
  exact read_run_of_allMeet sampleJson _ (by simp [Call.event, hwrites]) hmeets

/-- An event recorded behind a torn line is lost, and a line torn inside a character takes the
    whole log with it. -/
theorem read_run_torn :
    read sampleJson (run sampleJson [.cut sampleEvent 1, .returned sampleEvent]) = .ok [] ∧
    read sampleJson (run sampleJson [.returned sampleEvent, .cut sampleEvent 55]) =
      .error .invalidData := by
  decide +kernel

end FlyOnTheWall.Audit
