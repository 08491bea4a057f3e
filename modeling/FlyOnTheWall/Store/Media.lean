/-
  The `recordings` table (`fotw-store/src/media.rs`): the rows a sweep retires, and the
  inventory the sweeper decides from.

  A statement of the store is one function of the database; whether it fails is decided where it
  is called. Numbers are what SQLite keeps, signed and of 64 bits.
-/
import FlyOnTheWall.Lib.Paths
import FlyOnTheWall.Pipeline.Promote
import FlyOnTheWall.Pipeline.Retention

namespace FlyOnTheWall.MediaRows
open Lib Promote Retention List

/-! ## Rows -/

inductive RecordingState
  | writing
  | complete
  | deleted
  deriving DecidableEq, Repr

/-- The columns that are read or changed; a pair of a meeting and a channel has one row. -/
structure Recording where
  id : String
  meetingId : String
  channel : String
  relPath : String
  sampleRate : ℤ
  durationMs : Option ℤ
  bytes : Option ℤ
  state : RecordingState
  purgeAfterMs : Option ℤ
  updatedAt : ℤ
  deletedAt : Option ℤ
  lamport : ℤ
  originDeviceId : String
  deriving DecidableEq, Repr

structure MeetingRow where
  id : String
  startedAtMs : ℤ
  state : String
  retainAudio : String
  retainAudioDays : Option ℤ
  originDeviceId : String
  deriving DecidableEq, Repr

structure TranscriptRow where
  id : String
  meetingId : String
  createdAt : ℤ
  deriving DecidableEq, Repr

structure SegmentRow where
  transcriptId : String
  meetingId : String
  text : String
  deriving DecidableEq, Repr

structure Db where
  meetings : List MeetingRow
  transcripts : List TranscriptRow
  segments : List SegmentRow
  recordings : List Recording
  settings : List (String × String)
  deriving DecidableEq, Repr

def i64Max : ℤ := 2 ^ 63 - 1

/-- `i64::try_from(n).unwrap_or(i64::MAX)`. -/
def clampI64 (n : ℕ) : ℤ := min n i64Max

/-- `u64::try_from(n).ok()`. -/
def u64OfI64 (n : ℤ) : Option ℕ := if 0 ≤ n then some n.toNat else none

/-! ## Paths -/

/-- A path that is not relative to the data root. -/
def badRelPath (rel : String) : Bool :=
  rel == "" || isAbsolute rel || (components rel).any fun c => c = .parentDir ∨ c = .rootDir

/-! ## Updating rows -/

/-- `UPDATE recordings SET … WHERE meeting_id = ?1 AND state = 'complete'`. -/
def updateComplete (meetingId : String) (f : Recording → Recording) (r : Recording) : Recording :=
  if r.meetingId = meetingId ∧ r.state = .complete then f r else r

/-- Mark a meeting's audio gone, keeping the rows. -/
def markAudioDeleted (meetingId : String) (atMs now : ℤ) (db : Db) : Db :=
  { db with
    recordings := db.recordings.map (updateComplete meetingId fun r =>
      { r with state := .deleted, deletedAt := some atMs, updatedAt := now,
               lamport := r.lamport + 1 }) }

/-- Write back the deadline the current policy gives this meeting's audio. -/
def setPurgeAfter (meetingId : String) (purgeAfterMs : Option ℤ) (now : ℤ) (db : Db) : Db :=
  { db with
    recordings := db.recordings.map (updateComplete meetingId fun r =>
      { r with purgeAfterMs, updatedAt := now }) }

/-! ## The inventory -/

/-- One audio file still on disk for a meeting; `none` for a row that predates sizes. -/
structure AudioFile where
  relPath : String
  bytes : Option ℕ
  deriving DecidableEq, Repr

structure AudioRow where
  meetingId : String
  startedAtMs : ℤ
  state : String
  retainAudio : String
  retainAudioDays : Option ℤ
  transcriptReadyAtMs : Option ℤ
  transcriptBytes : ℕ
  audio : List AudioFile
  purgeAfterMs : Option ℤ
  deriving DecidableEq, Repr

/-- When a transcript with at least one segment first existed. -/
def transcriptReadyAt (db : Db) (meetingId : String) : Option ℤ :=
  ((db.transcripts.filter fun t => t.meetingId == meetingId &&
    db.segments.any (·.transcriptId == t.id)).map TranscriptRow.createdAt).min?

def transcriptBytes (db : Db) (meetingId : String) : ℕ :=
  ((db.segments.filter (·.meetingId == meetingId)).map fun s => s.text.length).sum

def emptyRow (db : Db) (m : MeetingRow) : AudioRow where
  meetingId := m.id
  startedAtMs := m.startedAtMs
  state := m.state
  retainAudio := m.retainAudio
  retainAudioDays := m.retainAudioDays
  transcriptReadyAtMs := transcriptReadyAt db m.id
  transcriptBytes := transcriptBytes db m.id
  audio := []
  purgeAfterMs := none

def Earlier (a b : MeetingRow) : Prop :=
  a.startedAtMs < b.startedAtMs ∨ a.startedAtMs = b.startedAtMs ∧ a.id ≤ b.id

instance : DecidableRel Earlier := fun a b => by unfold Earlier; infer_instance

def ByChannel (a b : Recording) : Prop := a.channel ≤ b.channel

instance : DecidableRel ByChannel := fun a b => by unfold ByChannel; infer_instance

def audioFile (r : Recording) : AudioFile := ⟨r.relPath, r.bytes.bind u64OfI64⟩

/-- The file of a row goes to the first entry of its meeting. -/
def pushAudio (r : Recording) : List AudioRow → List AudioRow
  | [] => []
  | row :: rows =>
    if row.meetingId = r.meetingId then
      { row with
        audio := row.audio ++ [audioFile r]
        purgeAfterMs := row.purgeAfterMs.or r.purgeAfterMs } :: rows
    else row :: pushAudio r rows

/-- A path that should never have been stored is not resolved and not counted. -/
def attach (rows : List AudioRow) (r : Recording) : List AudioRow :=
  if badRelPath r.relPath then rows else pushAudio r rows

/-- Every meeting, with its audio, its policy, and whether it has a transcript. -/
def audioInventory (db : Db) : List AudioRow :=
  ((db.recordings.filter (·.state = .complete)).insertionSort ByChannel).foldl attach
    ((db.meetings.insertionSort Earlier).map (emptyRow db))

/-! ## What the inventory lists -/

/-- The file is in the entry of the meeting. -/
def Lists (rows : List AudioRow) (meetingId : String) (file : AudioFile) : Prop :=
  ∃ row ∈ rows, row.meetingId = meetingId ∧ file ∈ row.audio

theorem pushAudio_ids (r : Recording) (rows : List AudioRow) :
    (pushAudio r rows).map AudioRow.meetingId = rows.map AudioRow.meetingId := by
  induction rows with
  | nil => rfl
  | cons row rows ih =>
    rw [pushAudio]
    split
    · rfl
    · rw [map_cons, ih, map_cons]

theorem attach_ids (rows : List AudioRow) (r : Recording) :
    (attach rows r).map AudioRow.meetingId = rows.map AudioRow.meetingId := by
  rw [attach]
  split
  · rfl
  · exact pushAudio_ids r rows

variable {rows : List AudioRow} {file : AudioFile}

theorem pushAudio_keeps (h : Lists rows meetingId file) (r : Recording) :
    Lists (pushAudio r rows) meetingId file := by
  induction rows with
  | nil => exact h
  | cons row rows ih =>
    obtain ⟨found, hfound, hid, hfile⟩ := h
    rw [pushAudio]
    split
    · rcases mem_cons.mp hfound with rfl | htail
      · exact ⟨_, mem_cons_self, hid, mem_append_left _ hfile⟩
      · exact ⟨found, mem_cons_of_mem _ htail, hid, hfile⟩
    · rcases mem_cons.mp hfound with rfl | htail
      · exact ⟨found, mem_cons_self, hid, hfile⟩
      · obtain ⟨row', hmem, hrest⟩ := ih ⟨found, htail, hid, hfile⟩
        exact ⟨row', mem_cons_of_mem _ hmem, hrest⟩

theorem pushAudio_lists (h : r.meetingId ∈ rows.map AudioRow.meetingId) :
    Lists (pushAudio r rows) r.meetingId (audioFile r) := by
  induction rows with
  | nil => exact absurd h not_mem_nil
  | cons row rows ih =>
    rw [pushAudio]
    split
    · next hid =>
      exact ⟨_, mem_cons_self, hid, mem_append_right _ mem_cons_self⟩
    · next hid =>
      rcases mem_cons.mp h with heq | htail
      · exact absurd heq.symm hid
      · obtain ⟨row', hmem, hrest⟩ := ih htail
        exact ⟨row', mem_cons_of_mem _ hmem, hrest⟩

theorem attach_keeps (h : Lists rows meetingId file) (r : Recording) :
    Lists (attach rows r) meetingId file := by
  rw [attach]
  split
  · exact h
  · exact pushAudio_keeps h r

theorem foldl_attach_keeps (rs : List Recording) (h : Lists rows meetingId file) :
    Lists (rs.foldl attach rows) meetingId file := by
  induction rs generalizing rows with
  | nil => exact h
  | cons r rs ih => exact ih (attach_keeps h r)

theorem foldl_attach_lists {rs : List Recording} (hr : r ∈ rs)
    (hpath : badRelPath r.relPath = false) (hmeeting : r.meetingId ∈ rows.map AudioRow.meetingId) :
    Lists (rs.foldl attach rows) r.meetingId (audioFile r) := by
  induction rs generalizing rows with
  | nil => exact absurd hr not_mem_nil
  | cons first rs ih =>
    rcases mem_cons.mp hr with rfl | htail
    · refine foldl_attach_keeps rs ?_
      rw [attach, hpath]
      exact pushAudio_lists hmeeting
    · refine ih htail ?_
      rw [attach_ids]
      exact hmeeting

/-- A complete row of a meeting of the library, with a path that may be resolved, is counted. -/
theorem audioInventory_lists {db : Db} (hr : r ∈ db.recordings) (hstate : r.state = .complete)
    (hpath : badRelPath r.relPath = false) (hmeeting : r.meetingId ∈ db.meetings.map MeetingRow.id)
    : Lists (audioInventory db) r.meetingId (audioFile r) := by
  refine foldl_attach_lists ?_ hpath ?_
  · rw [mem_insertionSort, mem_filter]
    exact ⟨hr, decide_eq_true hstate⟩
  · obtain ⟨m, hm, hid⟩ := mem_map.mp hmeeting
    rw [map_map]
    exact mem_map.mpr ⟨m, (mem_insertionSort Earlier).mpr hm, hid⟩

end FlyOnTheWall.MediaRows
