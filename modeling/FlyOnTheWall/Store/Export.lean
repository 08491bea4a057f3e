/-
  The bulk export (`export_library`, `fotw-store/src/archive.rs`, and `export_meeting`,
  `export.rs`).

  The documents are queries on the library. The export is a program on the destination: every
  meeting's document and Markdown, the manifest and the README are each written to a
  temporary file that is renamed, the template files and the media are copied in place. It
  can be cut after any step, and a file that is being written holds any part of its content;
  an operation that fails ends the run there. Files are named by texts relative to the
  destination, as the source joins them. What is copied is given from outside.
-/
import FlyOnTheWall.Lib.Paths
import FlyOnTheWall.Lib.Steps
import FlyOnTheWall.Store.Archive
import Mathlib.Data.List.Lex

namespace FlyOnTheWall.Store

open Lib List

/-! ## Queries -/

/-- The order of storage classes, and within them. -/
def Value.le : Value → Value → Bool
  | .null, _ => true
  | _, .null => false
  | .int m, .int n => m ≤ n
  | .int m, .real y => (m : ℚ) ≤ y
  | .real x, .int n => x ≤ n
  | .real x, .real y => x ≤ y
  | .int _, _ | .real _, _ => true
  | _, .int _ | _, .real _ => false
  | .text s, .text t => s ≤ t
  | .text _, _ => true
  | _, .text _ => false
  | .blob xs, .blob ys => xs.map UInt8.toNat ≤ ys.map UInt8.toNat

/-- `ORDER BY` these columns. -/
def Row.before : List String → Row → Row → Bool
  | [], _, _ => true
  | c :: cs, a, b => if a.get c = b.get c then Row.before cs a b else (a.get c).le (b.get c)

variable (db : Library)

/-- The rows of one table that meet a condition, in an order. -/
def Library.fetch (t : Table) (keep : Row → Bool) (order : List String) : List (RowOf t) :=
  ((db.rows.filter keep).filterMap fun r => if h : r.table = t then some ⟨r, h⟩ else none).mergeSort
    fun a b => Row.before order a.val b.val

/-- A table shared between meetings, without the reserved rows, in the order of its key. -/
def Library.fetchAll (t : Table) : List (RowOf t) :=
  db.fetch t (fun r => !r.reserved) (primaryKey t)

def meetingOrder : Table → List String
  | .meetingTags => ["tag_id"]
  | .segments => ["transcript_id", "idx"]
  | .speechEpochs => ["session_id", "source", "epoch"]
  | .speechReceipts => ["epoch_id", "from_sample"]
  | .postPassJobs => ["meeting_id"]
  | .postPassWindows => ["channel", "idx"]
  | .noteAnchors => ["note_id", "block_idx"]
  | .summaries | .meetingDocuments => ["version"]
  | .recordings => ["channel"]
  | _ => ["id"]

def Library.fetchByMeeting (id : String) (t : Table) : List (RowOf t) :=
  db.fetch t (fun r => r.get "meeting_id" == .text id) (meetingOrder t)

def Value.asText : Value → Option String
  | .text s => some s
  | _ => none

theorem Value.asText_eq_some {v : Value} {s : String} : v.asText = some s ↔ v = .text s := by
  cases v <;> simp [Value.asText]

def Library.meetingIds : List String :=
  (db.fetch .meetings (fun _ => true) ["started_at_ms", "id"]).filterMap fun r =>
    (r.val.get "id").asText

/-! ## Documents -/

def Library.exportMeeting (id : String) : Option MeetingDoc := do
  let meeting ← (db.fetch .meetings (fun r => r.get "id" == .text id) []).head?
  return ⟨meetingSchema, meeting, db.fetchByMeeting id⟩

def Library.manifest (exportedAtMs : ℤ) (includeAudio : Bool) : Manifest :=
  ⟨librarySchema, latestSchemaVersion, exportedAtMs, "none", includeAudio, db.meetingIds,
    db.fetchAll⟩

namespace Library
variable {db : Library}

theorem mem_fetch {t : Table} {keep : Row → Bool} {order : List String} {r : RowOf t} :
    r ∈ db.fetch t keep order ↔ r.val ∈ db.rows ∧ keep r.val = true := by
  unfold fetch
  rw [mem_mergeSort, mem_filterMap]
  constructor
  · rintro ⟨q, hq, hsome⟩
    split at hsome
    · cases hsome
      exact mem_filter.mp hq
    · cases hsome
  · intro h
    exact ⟨r.val, mem_filter.mpr h, dif_pos r.property⟩

variable {id : String}

theorem mem_meetingIds :
    id ∈ db.meetingIds ↔ ∃ r ∈ db.rows, r.table = .meetings ∧ r.get "id" = .text id := by
  unfold meetingIds
  rw [mem_filterMap]
  constructor
  · rintro ⟨r, hr, hid⟩
    exact ⟨r.val, (mem_fetch.mp hr).1, r.property, Value.asText_eq_some.mp hid⟩
  · rintro ⟨r, hr, htable, hid⟩
    exact ⟨⟨r, htable⟩, mem_fetch.mpr ⟨hr, rfl⟩, Value.asText_eq_some.mpr hid⟩

theorem meetingIds_nodup (h : Consistent indexes db.rows) : db.meetingIds.Nodup := by
  unfold meetingIds fetch List.Nodup
  rw [pairwise_filterMap, (mergeSort_perm _ _).pairwise_iff, pairwise_filterMap]
  · refine (Pairwise.filter _ h).imp fun {a b} hclash ra hra rb hrb i hi j hj hij => ?_
    have ha : ra.val = a := by
      split at hra
      · cases hra
        rfl
      · cases hra
    have hb : rb.val = b := by
      split at hrb
      · cases hrb
        rfl
      · cases hrb
    have hids : ra.val.get "id" = rb.val.get "id" := by
      rw [Value.asText_eq_some.mp hi, Value.asText_eq_some.mp hj, hij]
    have hkey : ra.val.primary = rb.val.primary := by
      unfold Row.primary
      rw [ra.property, rb.property]
      show (Table.meetings, [_]) = (Table.meetings, [_])
      rw [hids]
    rw [← ha, ← hb, clash_of_primary hkey] at hclash
    cases hclash
  · exact fun hab b hb a ha => (hab a ha b hb).symm

theorem exportMeeting_isSome (h : id ∈ db.meetingIds) : (db.exportMeeting id).isSome := by
  obtain ⟨r, hr, htable, hid⟩ := mem_meetingIds.mp h
  have hmem : ⟨r, htable⟩ ∈ db.fetch .meetings (fun r => r.get "id" == .text id) [] :=
    mem_fetch.mpr ⟨hr, beq_iff_eq.mpr hid⟩
  unfold exportMeeting
  cases hfetch : db.fetch .meetings (fun r => r.get "id" == .text id) [] with
  | nil =>
    rw [hfetch] at hmem
    cases hmem
  | cons first rest => rfl

theorem exportMeeting_eq_some {doc : MeetingDoc} (h : db.exportMeeting id = some doc) :
    ∃ meeting : RowOf .meetings, meeting.val ∈ db.rows ∧ meeting.val.get "id" = .text id ∧
      doc = ⟨meetingSchema, meeting, db.fetchByMeeting id⟩ := by
  obtain ⟨meeting, hmeeting, hdoc⟩ := Option.bind_eq_some_iff.mp h
  obtain ⟨hmem, hid⟩ := mem_fetch.mp (mem_of_mem_head? hmeeting)
  exact ⟨meeting, hmem, beq_iff_eq.mp hid, (Option.some.inj hdoc).symm⟩

end Library

/-! ## The destination -/

inductive Place
  | missing
  | notADirectory
  | directory (occupied : Bool)
  deriving DecidableEq

/-- A file that is created or written, by its name at the destination. What is copied comes
    from a path relative to the data root. -/
inductive Effect
  | write (name : String)
  | copy (rel name : String)
  deriving DecidableEq

structure Dest where
  place : Place
  files : String → Option Content
  log : List Effect

inductive ExportError
  | notADirectory
  | notAnArchive
  | meetingMissing (id : String)
  | templateUnreadable (name : String)
  deriving DecidableEq

abbrev Export : Type → Type := Prog Dest ExportError

namespace Dest

def openFile (effect : Effect) (name : String) (d : Dest) : Dest :=
  { d with files := Function.update d.files name (some []), log := d.log ++ [effect] }

def fill (name : String) (content : Content) (d : Dest) : Dest :=
  { d with files := Function.update d.files name (some content) }

def rename (source target : String) (d : Dest) : Dest :=
  { d with
    files := Function.update (Function.update d.files source none) target (d.files source)
    log := d.log ++ [.write target] }

end Dest

def prepareDestination : Export Unit := do
  match ← Prog.read fun d => .ok d.place with
  | .missing => Prog.step fun d => { d with place := .directory false }
  | .notADirectory => Prog.read fun _ => .error .notADirectory
  | .directory false => pure ()
  | .directory true => Prog.read fun d => refuseIf (d.files "library.json").isNone .notAnArchive

/-- A directory below the destination. -/
def createDir : Export Unit := Prog.step fun d => { d with place := .directory true }

/-- The content arrives byte by byte. -/
def fillSteps (name : String) (content : Content) : ℕ → Export Unit
  | 0 => pure ()
  | n + 1 => do
    fillSteps name content n
    Prog.step (Dest.fill name (content.take (n + 1)))

def writeFile (effect : Effect) (name : String) (content : Content) : Export Unit := do
  Prog.step (Dest.openFile effect name)
  fillSteps name content content.length

variable (stem extension : String)

/-- `with_extension("tmp")` of a stem and its extension. A name that is only an extension has
    none. -/
def temporary : String :=
  if stem.toList.getLast?.all (· == '/') then stem ++ extension ++ ".tmp" else stem ++ ".tmp"

/-- `write_atomic`. -/
def writeAtomic (content : Content) : Export Unit := do
  let tmp := temporary stem extension
  writeFile (.write tmp) tmp content
  Prog.step (Dest.rename tmp (stem ++ extension))

/-! ## The export -/

def documentStem (id : String) : String := joinPath "meetings" id
def markdownStem (id : String) : String := joinPath "markdown" id

/-- The files under the data root, by relative path, and the entries of the template
    directory, if they were asked for and can be listed. -/
structure ArchiveOptions where
  includeAudio : Bool
  dataRoot : Option (String → Option Content)
  files : ∀ root ∈ dataRoot, ∀ rel, (root rel).isSome → NamesFile rel
  templatesDir : Option (List (String × Node))
  names : ∀ entries ∈ templatesDir, ∀ e ∈ entries, '/' ∉ e.1.toList
  resume : Bool

theorem no_templates : ∀ entries ∈ (none : Option (List (String × Node))), ∀ e ∈ entries,
    '/' ∉ e.1.toList := nofun

/-- How documents are rendered. -/
structure Render where
  json : Json
  markdown : MeetingDoc → Content

structure ArchiveReport where
  meetings : ℕ
  written : ℕ
  skipped : ℕ
  audioFiles : ℕ
  audioBytes : ℕ
  missingMedia : List String

def plaintextWarning : String :=
  "This archive is NOT ENCRYPTED.

Your FlyOnTheWall library database is encrypted; the audio files beside it are
not. This directory is plain text: every transcript, every note and every
summary in it can be read by anyone — or any program — that can read these
files. That is deliberate, because an export another tool cannot open is not an
export. It is also the thing to understand before you copy this directory to a
shared drive, a synced folder or a backup service.

Two consequences worth stating outright:

  * Deleting a meeting inside FlyOnTheWall does not reach into this directory.
  * If you asked for audio, the recordings here are unchanged copies of the
    audio files FlyOnTheWall keeps on disk, which are not encrypted either.

library.json         the manifest, and the tables shared across meetings
meetings/<id>.json   one meeting each, complete: segments, word timings,
                     speakers, notes with their anchors, every summary version
markdown/<id>.md     the same meeting as a Markdown note (Obsidian-ready)
templates/*.md       your summary templates, exactly as they are on disk
media/...            audio, only if you asked for it

`fotwd import <this directory>` reads it back with the original identifiers.
"

def readme : Content := plaintextWarning.toUTF8.toList

/-- `is_intact_meeting_file`. -/
def isIntact (json : Json) (file : Option Content) (id : String) : Bool :=
  (file.bind (MeetingDoc.fromJson json)).any (·.meeting.val.get "id" == .text id)

variable (render : Render)

/-- One meeting; whether it was written. -/
def exportOne (resume : Bool) (db : Library) (id : String) : Export Bool := do
  if ← Prog.read fun d => .ok
      (resume && isIntact render.json (d.files (documentStem id ++ ".json")) id) then
    return false
  let doc ← Prog.read fun _ => okOr (db.exportMeeting id) (.meetingMissing id)
  writeAtomic (documentStem id) ".json" (render.json.meeting.toVec doc)
  writeAtomic (markdownStem id) ".md" (render.markdown doc)
  return true

/-- How many were written. -/
def exportMeetings (render : Render) (resume : Bool) (db : Library) : List String → Export ℕ
  | [] => return 0
  | id :: ids => do
    let written ← exportOne render resume db id
    let rest ← exportMeetings render resume db ids
    return (if written then 1 else 0) + rest

/-- An entry that is not a file cannot be copied. -/
def copyTemplate (name : String) (node : Node) : Export Unit :=
  if isMarkdown name then do
    let content ← Prog.read fun _ => okOr node.content (.templateUnreadable name)
    writeFile (.write ("templates/" ++ name)) ("templates/" ++ name) content
  else pure ()

/-- `copy_markdown_dir`. -/
def copyTemplates : List (String × Node) → Export Unit
  | [] => pure ()
  | (name, node) :: rest => do
    copyTemplate name node
    copyTemplates rest

/-- The relative paths that rows record; whether each is audio. -/
def Library.wanted (includeAudio : Bool) : List (String × Bool) :=
  (db.rows.filterMap fun r => match r.table, r.get "raw_response_rel_path" with
    | .transcripts, .text rel => if rel = "" then none else some (rel, false)
    | _, _ => none) ++
  if includeAudio then
    db.rows.filterMap fun r => match r.table, r.get "rel_path" with
      | .recordings, .text rel =>
        if r.get "state" = .text "complete" then some (rel, true) else none
      | _, _ => none
  else []

/-- `copy_media_out`: the number and bytes of the audio files, and what is not there. -/
def copyMediaOut (root : String → Option Content) :
    List (String × Bool) → Export (ℕ × ℕ × List String)
  | [] => return (0, 0, [])
  | (rel, isAudio) :: rest =>
    match root rel with
    | none => do
      let (files, bytes, missing) ← copyMediaOut root rest
      return (files, bytes, rel :: missing)
    | some content => do
      writeFile (.copy rel rel) rel content
      let (files, bytes, missing) ← copyMediaOut root rest
      return if isAudio then (files + 1, bytes + content.length, missing)
        else (files, bytes, missing)

section
variable (options : ArchiveOptions) (now : ℤ) (db : Library)

/-- What follows the meetings. -/
def exportShared : Export (ℕ × ℕ × List String) := do
  writeAtomic "library" ".json" (render.json.manifest.toVec (db.manifest now options.includeAudio))
  writeAtomic "README" ".txt" readme
  copyTemplates (options.templatesDir.getD [])
  match options.dataRoot with
  | none => return (0, 0, [])
  | some root => copyMediaOut root (db.wanted options.includeAudio)

def exportLibrary : Export ArchiveReport := do
  prepareDestination
  createDir
  createDir
  let written ← exportMeetings render options.resume db db.meetingIds
  let (audioFiles, audioBytes, missing) ← exportShared render options now db
  return ⟨db.meetingIds.length, written, db.meetingIds.length - written, audioFiles, audioBytes,
    missing⟩

end

/-- The archive at the destination, as the importer reads it. -/
def Dest.archive (d : Dest) (templates media : Option (List (String × Node))) : Archive where
  manifest := d.files "library.json"
  meeting id := d.files (documentStem id ++ ".json")
  templates
  media

end FlyOnTheWall.Store
