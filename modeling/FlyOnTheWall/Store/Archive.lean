/-
  The bulk archive and its importer (`fotw-store/src/archive.rs`).

  An archive is a directory: a manifest with the tables shared between meetings, one
  document for each meeting, and files to restore beside the database. The importer reads
  and checks all documents, inserts their rows one by one in one transaction, classifying
  every row that does not go in as it is, and then copies the files. JSON is a parameter, and
  so is the outcome of every file operation.
-/
import FlyOnTheWall.Lib.Storage
import FlyOnTheWall.Store.Schema

namespace FlyOnTheWall.Store

open Lib

abbrev RowOf (t : Table) : Type := { r : Row // r.table = t }

/-! ## Documents -/

def librarySchema : String := "flyonthewall/library@1"
def meetingSchema : String := "flyonthewall/meeting@1"
def latestSchemaVersion : ℕ := 11

/-- The tables of the manifest, in the order they are inserted. -/
def sharedTables : List Table := [
  .devices, .appMeta, .settings, .sessionNotes, .sessionNoteLinks, .folders, .templates, .people,
  .tags, .tombstones]

/-- The tables of a meeting document, in the order they are inserted after the meeting. -/
def meetingTables : List Table := [
  .meetingParticipants, .meetingTags, .transcripts, .segments, .speechEpochs, .speechReceipts,
  .postPassJobs, .postPassWindows, .notes, .noteAnchors, .summaries, .meetingDocuments,
  .actionItems, .recordings]

structure Manifest where
  schema : String
  schemaVersion : ℕ
  exportedAtMs : ℤ
  encryption : String
  includesAudio : Bool
  meetings : List String
  rows : (t : Table) → List (RowOf t)

structure MeetingDoc where
  schema : String
  meeting : RowOf .meetings
  rows : (t : Table) → List (RowOf t)

structure Json where
  manifest : Codec Manifest
  meeting : Codec MeetingDoc

abbrev Content : Type := List UInt8

/-- What stands under a name of a directory that is copied. -/
inductive Node
  | file (content : Content)
  | dir (entries : List (String × Node))

/-- An archive directory as the importer reads it. A text that cannot be read is absent, and
    a directory that cannot be listed has no entries. -/
structure Archive where
  manifest : Option Content
  meeting : String → Option Content
  templates : Option (List (String × Node))
  media : Option (List (String × Node))

/-! ## Reports and errors -/

inductive Detail
  | kept
  | cleared (flags : List String)
  deriving DecidableEq

structure Conflict where
  table : Table
  id : String
  detail : Detail
  deriving DecidableEq

structure ImportReport where
  meetings : ℕ
  rowsInserted : ℕ
  rowsAlreadyPresent : ℕ
  conflicts : List Conflict
  templatesRestored : ℕ
  mediaRestored : ℕ

inductive ImportError
  | manifestUnreadable
  | manifestInvalid
  | notALibrary (found : String)
  | newerSchema (version : ℕ)
  | meetingUnreadable (id : String)
  | meetingInvalid (id : String)
  | wrongMeeting (id : String)
  | collides (table : Table) (id : String)
  | foreignKey
  | files
  deriving DecidableEq

/-! ## Reading an archive -/

/-- The part of `app_meta` that belongs to one live library only. -/
def meetingInputPrefix : String := "summary_input_epoch:"

def Row.reserved (r : Row) : Bool :=
  r.table == .appMeta && match r.get "key" with
    | .text key => meetingInputPrefix.isPrefixOf key
    | _ => false

variable (json : Json)

def MeetingDoc.fromJson (raw : Content) : Option MeetingDoc :=
  (json.meeting.fromSlice raw).filter (·.schema == meetingSchema)

def readMeeting (archive : Archive) (id : String) : Except ImportError MeetingDoc := do
  let raw ← okOr (archive.meeting id) (.meetingUnreadable id)
  let doc ← okOr (MeetingDoc.fromJson json raw) (.meetingInvalid id)
  refuseIf (doc.meeting.val.get "id" != .text id) (.wrongMeeting id)
  return doc

def readArchive (archive : Archive) : Except ImportError (Manifest × List MeetingDoc) := do
  let raw ← okOr archive.manifest .manifestUnreadable
  let manifest ← okOr (json.manifest.fromSlice raw) .manifestInvalid
  refuseIf (manifest.schema != librarySchema) (.notALibrary manifest.schema)
  refuseIf (manifest.schemaVersion > latestSchemaVersion) (.newerSchema manifest.schemaVersion)
  let docs ← manifest.meetings.mapM (readMeeting json archive)
  return (manifest, docs)

/-- The rows of one table of a document. -/
def rowsOf (rows : (t : Table) → List (RowOf t)) (t : Table) : List Row := (rows t).map (·.val)

/-- The shared rows without the reserved ones. -/
def Manifest.shared (m : Manifest) : List Row :=
  (sharedTables.flatMap (rowsOf m.rows)).filter fun r => !r.reserved

def MeetingDoc.all (d : MeetingDoc) : List Row :=
  d.meeting.val :: meetingTables.flatMap (rowsOf d.rows)

/-- Every row, in the order of the inserts. -/
def archiveRows (m : Manifest) (docs : List MeetingDoc) : List Row :=
  m.shared ++ docs.flatMap MeetingDoc.all

/-! ## Inserting -/

def Row.pkDisplay (r : Row) : String :=
  "/".intercalate ((primaryKey r.table).map fun c =>
    match r.get c with
    | .text s => s
    | .int n => toString n
    | _ => "")

def ImportReport.add (report : ImportReport) (r : Row) (detail : Detail) : ImportReport :=
  { report with conflicts := report.conflicts ++ [⟨r.table, r.pkDisplay, detail⟩] }

variable (jsonValid : String → Bool)

/-- Decide what a constraint failure meant. -/
def classify (db : Library) (report : ImportReport) (r : Row) :
    Except ImportError (Library × ImportReport) :=
  match db.readByPk r with
  | some existing =>
    if existing = r then
      .ok (db, { report with rowsAlreadyPresent := report.rowsAlreadyPresent + 1 })
    else .ok (db, report.add r .kept)
  | none =>
    if exclusiveFlags r.table = [] then .error (.collides r.table r.pkDisplay)
    else
      match db.insert jsonValid r.cleared with
      | some db =>
        .ok (db, { report with rowsInserted := report.rowsInserted + 1 }.add r
          (.cleared (exclusiveFlags r.table)))
      | none => .error (.collides r.table r.pkDisplay)

variable (s : Library × ImportReport)

def insertRow (r : Row) : Except ImportError (Library × ImportReport) :=
  match s.1.insert jsonValid r with
  | some db => .ok (db, { s.2 with rowsInserted := s.2.rowsInserted + 1 })
  | none => classify jsonValid s.1 s.2 r

def insertRows (rows : List Row) : Except ImportError (Library × ImportReport) :=
  rows.foldlM (insertRow jsonValid) s

/-- One transaction. The foreign keys of what was inserted are checked at the end. -/
def importRows (db : Library) (report : ImportReport)
    (rows : List Row) : Except ImportError (Library × ImportReport) := do
  let s ← insertRows jsonValid (db, report) rows
  refuseIf (!(s.1.rows.drop db.rows.length).all (resolved references s.1.rows)) .foreignKey
  return s

/-! ## Copying files -/

/-- Contents by path. -/
abbrev Files : Type := List String → Option Content

inductive FileOp
  | makeDir (path : List String)
  | copy (path : List String) (source : Option Content)

def FileOp.path : FileOp → List String
  | .makeDir path | .copy path _ => path

/-- How an operation ends. A copy that fails may have left something in the target. -/
inductive FileIo
  | done
  | failed (left : Option Content)
  deriving DecidableEq

def Node.content : Node → Option Content
  | .file content => some content
  | .dir _ => none

/-- Whether a name ends in `.md` with something before it: its extension is `md`. -/
def isMarkdown (name : String) : Bool :=
  3 < name.length && ".md".toList.isSuffixOf name.toList

/-- `copy_markdown_dir`. -/
def copyMarkdownDir : Option (List (String × Node)) → List FileOp
  | none => []
  | some entries => .makeDir [] :: (entries.filter fun e => isMarkdown e.1).map fun e =>
      .copy [e.1] e.2.content

mutual

/-- `copy_tree` of a directory that can be listed. -/
def copyTree (path : List String) (entries : List (String × Node)) : List FileOp :=
  .makeDir path :: copyEntries path entries

def copyEntries (path : List String) : List (String × Node) → List FileOp
  | [] => []
  | (name, node) :: rest => copyNode (path ++ [name]) node ++ copyEntries path rest

def copyNode (path : List String) : Node → List FileOp
  | .file content => [.copy path (some content)]
  | .dir entries => copyTree path entries

end

/-- One operation; a source that is not a file cannot be copied. -/
def FileOp.run (op : FileOp) (io : FileIo) (files : Files) : Bool × Files :=
  match op, io with
  | .makeDir _, .done => (true, files)
  | .makeDir _, .failed _ => (false, files)
  | .copy path (some content), .done => (true, Function.update files path (some content))
  | .copy _ none, .done => (false, files)
  | .copy _ _, .failed none => (false, files)
  | .copy path _, .failed (some left) => (false, Function.update files path (some left))

/-- Operations up to the first that fails, and the number of copies made. How the operation on
    a path ends, `io` says. -/
def runOps (io : List String → FileIo) : List FileOp → Files → Except ImportError ℕ × Files
  | [], files => (.ok 0, files)
  | op :: ops, files =>
    match op.run (io op.path) files with
    | (false, files) => (.error .files, files)
    | (true, files) =>
      let rest := runOps io ops files
      (rest.1.map (· + if op matches .makeDir _ then 0 else 1), rest.2)

/-! ## The importer -/

/-- What an import can change. -/
structure Local where
  library : Library
  templates : Files
  media : Files

/-- Whether to restore the files, and how the operations on them end. -/
structure ImportOptions where
  templatesDir : Bool
  dataRoot : Bool
  templatesIo : List String → FileIo
  mediaIo : List String → FileIo

def ImportReport.start (meetings : ℕ) : ImportReport := ⟨meetings, 0, 0, [], 0, 0⟩

/-- The rows of an archive; an error leaves the library as it was. -/
def importArchiveRows (json : Json) (jsonValid : String → Bool) (archive : Archive)
    (db : Library) : Except ImportError (Library × ImportReport) := do
  let (manifest, docs) ← readArchive json archive
  importRows jsonValid db (.start docs.length) (archiveRows manifest docs)

variable (options : ImportOptions) (archive : Archive) (files : Files)

def restoreTemplates : Except ImportError ℕ × Files :=
  if options.templatesDir then
    runOps options.templatesIo (copyMarkdownDir archive.templates) files
  else (.ok 0, files)

def restoreMedia : Except ImportError ℕ × Files :=
  if options.dataRoot then
    runOps options.mediaIo ((archive.media.map (copyTree [])).getD []) files
  else (.ok 0, files)

/-- `import_library_with`: the rows are committed before any file is copied. -/
def importLibraryWith (json : Json) (jsonValid : String → Bool) (options : ImportOptions)
    (archive : Archive) (s : Local) : Except ImportError ImportReport × Local :=
  match importArchiveRows json jsonValid archive s.library with
  | .error e => (.error e, s)
  | .ok (db, report) =>
    match restoreTemplates options archive s.templates with
    | (.error e, templates) => (.error e, { s with library := db, templates })
    | (.ok restored, templates) =>
      match restoreMedia options archive s.media with
      | (.error e, media) => (.error e, ⟨db, templates, media⟩)
      | (.ok media, mediaFiles) =>
        (.ok { report with templatesRestored := restored, mediaRestored := media },
          ⟨db, templates, mediaFiles⟩)

end FlyOnTheWall.Store
