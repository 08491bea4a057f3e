/-
  The library's tables (`fotw-store/src/schema/*.sql`, and the row types of `export.rs`).

  A row is its table and its values in the order of the table's columns, each of the
  column's type. The unique indexes, partial ones included, the checks and the foreign keys
  are data here; `Library.insert` is what SQLite makes of them for one plain `INSERT`, with
  the triggers that renew the input generation of a meeting. The `app_meta` rows those
  triggers own are kept apart from the other rows.
-/
import FlyOnTheWall.Lib.Tables
import Mathlib.Data.List.Forall2
import Mathlib.Data.Rat.Defs

namespace FlyOnTheWall.Store

open Lib List

/-! ## Tables -/

inductive Table
  | devices | appMeta | settings | sessionNotes | sessionNoteLinks
  | folders | templates | people | tags | tombstones
  | meetings | meetingParticipants | meetingTags | transcripts | segments
  | speechEpochs | speechReceipts | postPassJobs | postPassWindows
  | notes | noteAnchors | summaries | meetingDocuments | actionItems | recordings
  deriving DecidableEq, Repr

/-- Finite doubles are rationals. -/
inductive Value
  | null
  | int (n : ℤ)
  | text (s : String)
  | real (x : ℚ)
  | blob (bytes : List UInt8)
  deriving DecidableEq

inductive Kind
  | text | int | real | blob
  deriving DecidableEq, Repr

structure Column where
  name : String
  kind : Kind
  nullable : Bool
  deriving DecidableEq, Repr

def Column.fits (c : Column) : Value → Bool
  | .null => c.nullable
  | .int _ => c.kind = .int
  | .text _ => c.kind = .text
  | .real _ => c.kind = .real
  | .blob _ => c.kind = .blob

/-- What an `INTEGER` zero is stored as: a `STRICT` text column converts it. -/
def Column.zero (c : Column) : Value :=
  match c.kind with
  | .text => .text "0"
  | .int => .int 0
  | .real => .real 0
  | .blob => .blob [48]

variable (name : String)

def text : Column := ⟨name, .text, false⟩
def int : Column := ⟨name, .int, false⟩
def optText : Column := ⟨name, .text, true⟩
def optInt : Column := ⟨name, .int, true⟩
def optReal : Column := ⟨name, .real, true⟩
def optBlob : Column := ⟨name, .blob, true⟩

def columns : Table → List Column
  | .devices => [text "id", text "name", text "platform", text "app_version", int "is_self",
      optInt "last_seen_at_ms", int "created_at", int "updated_at"]
  | .appMeta => [text "key", text "value", int "updated_at"]
  | .settings => [text "key", text "value", int "updated_at", int "lamport",
      text "origin_device_id"]
  | .sessionNotes => [text "session_id", int "started_at_ms", int "revision", text "body_md",
      text "anchors_json", int "updated_at_ms"]
  | .sessionNoteLinks => [text "session_id", text "meeting_id", int "started_at_ms",
      int "elapsed_ms", int "clock_is_final"]
  | .folders => [text "id", text "name", optText "parent_id", text "sort_key", int "created_at",
      int "updated_at", int "lamport", text "origin_device_id"]
  | .templates => [text "id", text "name", text "body_md", int "is_builtin", int "is_default",
      int "created_at", int "updated_at", int "lamport", text "origin_device_id"]
  | .people => [text "id", text "display_name", optText "email", int "is_self",
      optText "voice_label", int "created_at", int "updated_at", int "lamport",
      text "origin_device_id"]
  | .tags => [text "id", text "name", optText "color", int "created_at", int "updated_at",
      int "lamport", text "origin_device_id"]
  | .tombstones => [text "id", text "kind", int "deleted_at", text "origin_device_id",
      int "lamport"]
  | .meetings => [text "id", text "title", int "started_at_ms", optInt "ended_at_ms",
      optInt "duration_ms", text "tz", optText "folder_id", optText "template_id",
      optText "calendar_uid", optText "calendar_source", optText "meeting_url",
      optText "app_hint", text "state", optText "language", int "disclosed", text "retain_audio",
      optInt "retain_audio_days", int "created_at", int "updated_at", int "lamport",
      text "origin_device_id", optText "enrich_status", optText "enrich_detail"]
  | .meetingParticipants => [text "id", text "meeting_id", optText "person_id",
      text "display_name", optText "email", optText "role", optText "speaker_label",
      int "created_at", int "updated_at", int "lamport", text "origin_device_id"]
  | .meetingTags => [text "meeting_id", text "tag_id", int "created_at", int "lamport",
      text "origin_device_id"]
  | .transcripts => [text "id", text "meeting_id", text "provider", text "model",
      int "is_primary", optText "language", optInt "audio_ms", optInt "cost_micros",
      optText "raw_response_rel_path", int "created_at", int "updated_at", int "lamport",
      text "origin_device_id"]
  | .segments => [text "id", text "transcript_id", text "meeting_id", int "idx", int "start_ms",
      int "end_ms", text "channel", optText "speaker_label", optText "person_id", text "text",
      optReal "confidence", int "is_final", optBlob "words"]
  | .speechEpochs => [text "id", text "meeting_id", text "transcript_id", text "session_id",
      text "source", int "epoch", int "from_sample", text "provider", text "model",
      optText "revision", text "capabilities_json", optText "reason"]
  | .speechReceipts => [text "id", text "meeting_id", text "transcript_id", text "epoch_id",
      int "from_sample", int "through_sample", text "payload_json"]
  | .postPassJobs => [text "meeting_id", text "state", int "created_at_ms", int "updated_at_ms",
      text "plan_json", int "progress_permille", optText "live_transcript_id",
      optText "cleaned_transcript_id", optText "provenance_json", optText "detail"]
  | .postPassWindows => [text "id", text "meeting_id", text "channel", int "idx",
      text "words_json"]
  | .notes => [text "id", text "meeting_id", text "body_md", int "created_at", int "updated_at",
      int "lamport", text "origin_device_id"]
  | .noteAnchors => [text "id", text "note_id", text "meeting_id", int "block_idx",
      text "block_text", int "typed_at_ms"]
  | .summaries => [text "id", text "meeting_id", int "version", optText "template_id",
      optText "transcript_id", text "provider", text "model", text "prompt_hash", text "body_md",
      optReal "coverage", optInt "input_tokens", optInt "output_tokens", optInt "cost_micros",
      int "is_current", int "created_at", text "origin_device_id"]
  | .meetingDocuments => [text "id", text "meeting_id", int "version", text "document_json",
      int "created_at"]
  | .actionItems => [text "id", text "meeting_id", optText "summary_id", text "kind",
      text "text", optText "owner_person_id", optText "owner_label", optInt "due_ms",
      optText "due_raw", text "confidence", text "evidence_segment_ids",
      optText "evidence_quote", text "status", int "created_at", int "updated_at", int "lamport",
      text "origin_device_id"]
  | .recordings => [text "id", text "meeting_id", text "channel", text "rel_path", text "codec",
      text "container", int "sample_rate", int "channels", int "bitrate_bps",
      optInt "duration_ms", optInt "bytes", optText "sha256", int "encrypted", text "state",
      optInt "purge_after_ms", int "created_at", int "updated_at", optInt "deleted_at",
      int "lamport", text "origin_device_id"]

/-- How "already imported" is judged. -/
def primaryKey : Table → List String
  | .appMeta | .settings => ["key"]
  | .sessionNotes | .sessionNoteLinks => ["session_id"]
  | .meetingTags => ["meeting_id", "tag_id"]
  | .postPassJobs => ["meeting_id"]
  | _ => ["id"]

/-- The columns that only one row of the library, or of a meeting, may set. -/
def exclusiveFlags : Table → List String
  | .devices => ["is_self"]
  | .sessionNoteLinks => ["meeting_id"]
  | .templates => ["is_default"]
  | .transcripts => ["is_primary"]
  | .summaries => ["is_current"]
  | _ => []

/-! ## Rows -/

structure Row where
  table : Table
  values : List Value
  typed : List.Forall₂ (fun c v => Column.fits c v = true) (columns table) values
  deriving DecidableEq

namespace Row

variable (r : Row)

def get (column : String) : Value :=
  (r.values[(columns r.table).findIdx (·.name == column)]?).getD .null

def primary : Table × List Value := (r.table, (primaryKey r.table).map r.get)

theorem typed_zipWith {cs : List Column} {vs : List Value} {f : Column → Value → Value}
    (h : List.Forall₂ (fun c v => Column.fits c v = true) cs vs)
    (hf : ∀ c v, Column.fits c v = true → c.fits (f c v) = true) :
    List.Forall₂ (fun c v => Column.fits c v = true) cs (zipWith f cs vs) := by
  induction h with
  | nil => exact .nil
  | cons hcv _ ih => exact .cons (hf _ _ hcv) ih

theorem zero_fits (c : Column) : c.fits c.zero = true := by
  unfold Column.zero
  cases hc : c.kind <;> simp [Column.fits, hc]

/-- The row with every exclusive flag forced to zero. -/
def cleared : Row where
  table := r.table
  values := List.zipWith (fun c v => if c.name ∈ exclusiveFlags r.table then c.zero else v)
    (columns r.table) r.values
  typed := by
    refine typed_zipWith r.typed fun c v hv => ?_
    split
    · exact zero_fits c
    · exact hv

/-- Only the flags differ. -/
theorem cleared_get {column : String} (h : column ∉ exclusiveFlags r.table) :
    r.cleared.get column = r.get column := by
  unfold get cleared
  dsimp only
  rw [getElem?_zipWith]
  cases hc : (columns r.table)[(columns r.table).findIdx (·.name == column)]? with
  | none =>
    have hlength := r.typed.length_eq
    rw [getElem?_eq_none_iff] at hc
    rw [getElem?_eq_none (by omega)]
  | some c =>
    obtain ⟨hlt, rfl⟩ := List.getElem?_eq_some_iff.mp hc
    have hname := eq_of_beq (findIdx_getElem (w := hlt))
    cases r.values[(columns r.table).findIdx (·.name == column)]? with
    | none => rfl
    | some v =>
      dsimp only
      rw [hname, if_neg h]

theorem primaryKey_not_exclusive (t : Table) : ∀ c ∈ primaryKey t, c ∉ exclusiveFlags t := by
  cases t <;> decide

@[simp] theorem cleared_primary : r.cleared.primary = r.primary := by
  show (r.table, (primaryKey r.table).map r.cleared.get) = (r.table, _)
  rw [map_congr_left fun c hc => cleared_get r (primaryKey_not_exclusive r.table c hc)]

end Row

/-! ## Constraints -/

/-- A unique index; a partial one covers the rows with its flag set. -/
structure UniqueIndex where
  table : Table
  columns : List String
  flag : Option String

/-- `NULL`s are distinct from each other. -/
def UniqueIndex.key (i : UniqueIndex) (r : Row) : Option (Table × List Value) :=
  if r.table = i.table ∧ i.flag.all (r.get · == .int 1) ∧ Value.null ∉ i.columns.map r.get then
    some (r.table, i.columns.map r.get)
  else none

def uniqueIndexes : List UniqueIndex := [
  ⟨.devices, ["is_self"], some "is_self"⟩,
  ⟨.templates, ["is_default"], some "is_default"⟩,
  ⟨.people, ["email"], none⟩,
  ⟨.meetingParticipants, ["meeting_id", "person_id"], none⟩,
  ⟨.transcripts, ["meeting_id"], some "is_primary"⟩,
  ⟨.segments, ["transcript_id", "idx"], none⟩,
  ⟨.notes, ["meeting_id"], none⟩,
  ⟨.noteAnchors, ["note_id", "block_idx"], none⟩,
  ⟨.summaries, ["meeting_id", "version"], none⟩,
  ⟨.summaries, ["meeting_id"], some "is_current"⟩,
  ⟨.tags, ["name"], none⟩,
  ⟨.recordings, ["meeting_id", "channel"], none⟩,
  ⟨.meetingDocuments, ["meeting_id", "version"], none⟩,
  ⟨.sessionNoteLinks, ["meeting_id"], none⟩,
  ⟨.speechEpochs, ["session_id", "source", "epoch"], none⟩,
  ⟨.speechEpochs, ["id", "meeting_id", "transcript_id"], none⟩,
  ⟨.speechReceipts, ["epoch_id", "from_sample"], none⟩,
  ⟨.postPassWindows, ["meeting_id", "channel", "idx"], none⟩]

def indexes : List (Row → Option (Table × List Value)) :=
  (fun r => some r.primary) :: uniqueIndexes.map UniqueIndex.key

/-- Every row has a primary key. -/
theorem clash_of_primary {a b : Row} (h : a.primary = b.primary) : clash indexes a b = true :=
  clash_of_key (fun r => some r.primary) mem_cons_self rfl (congrArg some h)

theorem eq_of_primary {rows : List Row} (hrows : Consistent indexes rows) {a b : Row}
    (ha : a ∈ rows) (hb : b ∈ rows) (h : a.primary = b.primary) : a = b :=
  hrows.eq_of_key (fun r => some r.primary) mem_cons_self ha hb rfl (congrArg some h)

structure ForeignKey where
  columns : List String
  target : Table
  targetColumns : List String

def toMeeting : ForeignKey := ⟨["meeting_id"], .meetings, ["id"]⟩
def toPerson (column : String) : ForeignKey := ⟨[column], .people, ["id"]⟩
def toTranscript (column : String) : ForeignKey := ⟨[column], .transcripts, ["id"]⟩

def foreignKeys : Table → List ForeignKey
  | .folders => [⟨["parent_id"], .folders, ["id"]⟩]
  | .meetings => [⟨["folder_id"], .folders, ["id"]⟩, ⟨["template_id"], .templates, ["id"]⟩]
  | .sessionNoteLinks | .transcripts | .notes | .recordings | .meetingDocuments => [toMeeting]
  | .meetingParticipants => [toMeeting, toPerson "person_id"]
  | .meetingTags => [toMeeting, ⟨["tag_id"], .tags, ["id"]⟩]
  | .segments => [toTranscript "transcript_id", toMeeting, toPerson "person_id"]
  | .noteAnchors => [⟨["note_id"], .notes, ["id"]⟩, toMeeting]
  | .summaries =>
    [toMeeting, ⟨["template_id"], .templates, ["id"]⟩, toTranscript "transcript_id"]
  | .actionItems =>
    [toMeeting, ⟨["summary_id"], .summaries, ["id"]⟩, toPerson "owner_person_id"]
  | .speechEpochs => [toMeeting, toTranscript "transcript_id"]
  | .speechReceipts => [toMeeting, toTranscript "transcript_id",
      ⟨["epoch_id", "meeting_id", "transcript_id"], .speechEpochs,
        ["id", "meeting_id", "transcript_id"]⟩]
  | .postPassJobs =>
    [toMeeting, toTranscript "live_transcript_id", toTranscript "cleaned_transcript_id"]
  | .postPassWindows => [⟨["meeting_id"], .postPassJobs, ["meeting_id"]⟩]
  | .devices | .appMeta | .settings | .sessionNotes | .templates | .people | .tags
  | .tombstones => []

def ForeignKey.meets (fk : ForeignKey) (r target : Row) : Bool :=
  target.table == fk.target && fk.targetColumns.map target.get == fk.columns.map r.get

/-- A reference with a `NULL` in it asks for nothing. -/
def references (r : Row) : List (Row → Bool) :=
  ((foreignKeys r.table).filter fun fk => !(fk.columns.map r.get).contains .null).map (·.meets r)

def Value.atLeast (bound : ℤ) : Value → Bool
  | .int n => bound ≤ n
  | _ => true

variable (jsonValid : String → Bool)

def Value.isJson : Value → Bool
  | .text s => jsonValid s
  | _ => true

def Value.below : Value → Value → Bool
  | .int m, .int n => m < n
  | _, _ => true

/-- The `CHECK` clauses; `json_valid` is a parameter. -/
def checks (r : Row) : Bool :=
  match r.table with
  | .sessionNotes => (r.get "started_at_ms").atLeast 0 && (r.get "revision").atLeast 1
  | .sessionNoteLinks => (r.get "started_at_ms").atLeast 0 && (r.get "elapsed_ms").atLeast 0 &&
      [Value.int 0, .int 1].contains (r.get "clock_is_final")
  | .speechEpochs => [Value.text "system", .text "mic"].contains (r.get "source") &&
      (r.get "epoch").atLeast 0 && (r.get "from_sample").atLeast 0 &&
      (r.get "capabilities_json").isJson jsonValid
  | .speechReceipts => (r.get "from_sample").atLeast 0 &&
      (r.get "from_sample").below (r.get "through_sample") &&
      (r.get "payload_json").isJson jsonValid
  | .postPassJobs =>
      [Value.text "pending", .text "done", .text "failed"].contains (r.get "state") &&
      (r.get "plan_json").isJson jsonValid && (r.get "progress_permille").atLeast 0 &&
      (r.get "progress_permille").below (.int 1001) && (r.get "provenance_json").isJson jsonValid
  | .postPassWindows => [Value.text "mic", .text "system"].contains (r.get "channel") &&
      (r.get "idx").atLeast 0 && (r.get "words_json").isJson jsonValid
  | _ => true

/-! ## The library -/

/-- The rows, and beside them the input generation of each meeting: the `app_meta` rows that
    triggers write. A generation is a random text. -/
structure Library where
  rows : List Row
  generations : String → Option String
  random : ℕ → String
  drawn : ℕ

/-- The tables whose inserts renew a generation. -/
def renewsInput : Table → Bool
  | .meetings | .transcripts | .segments | .notes | .noteAnchors | .speechEpochs
  | .speechReceipts | .sessionNoteLinks => true
  | _ => false

def Row.meeting (r : Row) : Value :=
  if r.table = .meetings then r.get "id" else r.get "meeting_id"

namespace Library

variable (db : Library)

def hasMeeting (id : Value) : Bool :=
  db.rows.any fun q => q.table == .meetings && q.get "id" == id

/-- The insert triggers. -/
def renew (r : Row) : Library :=
  match r.meeting with
  | .text id =>
    if renewsInput r.table && db.hasMeeting (.text id) then
      { db with
        generations := Function.update db.generations id (some (db.random db.drawn))
        drawn := db.drawn + 1 }
    else db
  | _ => db

/-- A plain `INSERT`; nothing on a constraint violation. Foreign keys are deferred. -/
def insert (r : Row) : Option Library :=
  if admits indexes db.rows r && checks jsonValid r then
    some ({ db with rows := db.rows ++ [r] }.renew r)
  else none

def readByPk (r : Row) : Option Row :=
  db.rows.find? fun q => q.primary == r.primary

@[simp] theorem renew_rows (r : Row) : (db.renew r).rows = db.rows := by
  unfold renew
  split
  · split <;> rfl
  · rfl

variable {db : Library} {r q : Row}

theorem insert_rows {jsonValid : String → Bool} {db' : Library}
    (h : db.insert jsonValid r = some db') : db'.rows = db.rows ++ [r] := by
  unfold insert at h
  split at h
  · cases h
    rw [renew_rows]
  · cases h

/-- A row with the same primary key is in the way. -/
theorem insert_eq_none {jsonValid : String → Bool} (hq : q ∈ db.rows)
    (hkey : q.primary = r.primary) :
    db.insert jsonValid r = none := by
  have hclash := clash_of_primary hkey
  refine if_neg fun hok => ?_
  obtain ⟨hadmits, -⟩ := Bool.and_eq_true_iff.mp hok
  rw [admits_eq_true.mp hadmits q hq] at hclash
  cases hclash

theorem readByPk_eq_some (h : db.readByPk r = some q) : q ∈ db.rows ∧ q.primary = r.primary := by
  have hkey := find?_some h
  exact ⟨mem_of_find?_eq_some h, eq_of_beq hkey⟩

theorem readByPk_isSome (hq : q ∈ db.rows) (hkey : q.primary = r.primary) :
    ∃ found, db.readByPk r = some found := by
  refine Option.isSome_iff_exists.mp (find?_isSome.mpr ⟨q, hq, ?_⟩)
  rw [hkey]
  exact beq_self_eq_true _

end Library

end FlyOnTheWall.Store
