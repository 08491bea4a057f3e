/-
  An export and its import.

  * `mem_archiveRows`: the documents of a sound library hold every row of it.
  * `readArchive_exported`: what an export leaves is read back as those documents.
-/
import FlyOnTheWall.Store.Confined
import FlyOnTheWall.Store.ImportFiles

namespace FlyOnTheWall.Store

open Lib Prog List Option

variable {jsonValid : String → Bool}

/-! ## The meeting of a row -/

variable {column : String}

theorem Row.get_fits (r : Row) {c : Column}
    (hc : (columns r.table).find? (·.name == column) = some c) : c.fits (r.get column) = true := by
  have hcolumn : (columns r.table)[(columns r.table).findIdx (·.name == column)]? = some c := by
    rw [← find?_eq_getElem?_findIdx, hc]
  unfold Row.get
  generalize (columns r.table).findIdx (·.name == column) = i at hcolumn
  obtain ⟨hi, hci⟩ := List.getElem?_eq_some_iff.mp hcolumn
  have hi' : i < r.values.length := r.typed.length_eq ▸ hi
  rw [getElem?_eq_getElem hi']
  have hfits := List.Forall₂.get r.typed hi hi'
  rw [get_eq_getElem, hci] at hfits
  exact hfits

theorem Row.get_text (r : Row)
    (hc : (columns r.table).find? (·.name == column) = some (text column)) :
    ∃ s, r.get column = .text s := by
  have hfits := r.get_fits hc
  cases hvalue : r.get column with
  | text s => exact ⟨s, rfl⟩
  | null =>
    rw [hvalue] at hfits
    cases hfits
  | int | real | blob =>
    rw [hvalue] at hfits
    exact absurd hfits (by simp [Column.fits, text])

variable {t : Table}

theorem meeting_id_column (h : t ∈ meetingTables) :
    (columns t).find? (·.name == "meeting_id") = some (text "meeting_id") := by
  revert h
  cases t <;> decide

variable {r : Row} {db : Library}

/-- A reference by one text column names a row. -/
theorem Sound.target_of_text (h : Sound jsonValid db) (hr : r ∈ db.rows) {targetColumn : String}
    {target : Table} {s : String} (hfk : ⟨[column], target, [targetColumn]⟩ ∈ foreignKeys r.table)
    (hs : r.get column = .text s) :
    ∃ q ∈ db.rows, q.table = target ∧ q.get targetColumn = .text s := by
  have hnull : Value.null ∉ [column].map r.get := by
    rw [map_singleton, hs]
    exact fun hmem => (nomatch mem_singleton.mp hmem)
  obtain ⟨q, hq, htable, hcolumns⟩ := target_of_resolved (h.references r hr) hfk hnull
  refine ⟨q, hq, htable, ?_⟩
  rw [← hs]
  exact (cons.inj hcolumns).1

theorem meetingTables_reference (h : t ∈ meetingTables) :
    t = .postPassWindows ∨ toMeeting ∈ foreignKeys t := by
  cases t with
  | postPassWindows => exact .inl rfl
  | meetingParticipants | meetingTags | transcripts | segments | speechEpochs | speechReceipts
  | postPassJobs | notes | noteAnchors | summaries | meetingDocuments | actionItems | recordings =>
    exact .inr (by simp [foreignKeys])
  | devices | appMeta | settings | sessionNotes | sessionNoteLinks | folders | templates | people
  | tags | tombstones | meetings => exact absurd h (by decide)

/-- Every row of a meeting's tables belongs to a meeting that is there. -/
theorem Sound.meeting (h : Sound jsonValid db) (hr : r ∈ db.rows)
    (htable : r.table ∈ meetingTables) :
    ∃ id ∈ db.meetingIds, r.get "meeting_id" = .text id := by
  obtain ⟨id, hid⟩ := r.get_text (meeting_id_column htable)
  refine ⟨id, Library.mem_meetingIds.mpr ?_, hid⟩
  rcases meetingTables_reference htable with hwindows | hfk
  · -- The windows of a job refer to the job.
    have hfk : ⟨["meeting_id"], .postPassJobs, ["meeting_id"]⟩ ∈ foreignKeys r.table := by
      rw [hwindows]
      exact mem_cons_self
    obtain ⟨job, hjob, hjobTable, hjobId⟩ := h.target_of_text hr hfk hid
    have hmeeting : toMeeting ∈ foreignKeys job.table := by
      rw [hjobTable]
      exact mem_cons_self
    exact h.target_of_text hjob hmeeting hjobId
  · exact h.target_of_text hr hfk hid

/-! ## Every row is exported -/

/-- The documents of all meetings. -/
def Library.documents (db : Library) : List MeetingDoc := db.meetingIds.filterMap db.exportMeeting

theorem mem_rowsOf {rows : (t : Table) → List (RowOf t)} :
    r ∈ rowsOf rows t ↔ ∃ h : r.table = t, ⟨r, h⟩ ∈ rows t := by
  unfold rowsOf
  rw [List.mem_map]
  constructor
  · rintro ⟨q, hq, rfl⟩
    exact ⟨q.property, hq⟩
  · rintro ⟨h, hr⟩
    exact ⟨⟨r, h⟩, hr, rfl⟩

theorem table_cases (t : Table) : t ∈ sharedTables ∨ t = .meetings ∨ t ∈ meetingTables := by
  cases t <;> decide

variable {includeAudio : Bool} {now : ℤ} {id : String}

open Library

theorem mem_shared : r ∈ (db.manifest now includeAudio).shared ↔
      r ∈ db.rows ∧ r.table ∈ sharedTables ∧ r.reserved = false := by
  unfold Manifest.shared
  rw [mem_filter, mem_flatMap]
  constructor
  · rintro ⟨⟨t, ht, hr⟩, hreserved⟩
    obtain ⟨rfl, hr⟩ := mem_rowsOf.mp hr
    exact ⟨(mem_fetch.mp hr).1, ht, by simpa using hreserved⟩
  · rintro ⟨hr, ht, hreserved⟩
    refine ⟨⟨r.table, ht, mem_rowsOf.mpr ⟨rfl, mem_fetch.mpr ⟨hr, ?_⟩⟩⟩, ?_⟩
    · simpa using hreserved
    · simpa using hreserved

theorem mem_all {meeting : RowOf .meetings} :
    r ∈ MeetingDoc.all ⟨meetingSchema, meeting, db.fetchByMeeting id⟩ ↔
      r = meeting.val ∨ r ∈ db.rows ∧ r.table ∈ meetingTables ∧ r.get "meeting_id" = .text id := by
  unfold MeetingDoc.all
  rw [mem_cons, mem_flatMap]
  refine or_congr_right ⟨?_, ?_⟩
  · rintro ⟨t, ht, hr⟩
    obtain ⟨rfl, hr⟩ := mem_rowsOf.mp hr
    obtain ⟨hr, hid⟩ := mem_fetch.mp hr
    exact ⟨hr, ht, beq_iff_eq.mp hid⟩
  · rintro ⟨hr, ht, hid⟩
    exact ⟨r.table, ht, mem_rowsOf.mpr ⟨rfl, mem_fetch.mpr ⟨hr, beq_iff_eq.mpr hid⟩⟩⟩

theorem mem_archiveRows (hdb : Sound jsonValid db) :
    r ∈ archiveRows (db.manifest now includeAudio) db.documents ↔ r ∈ db.rows := by
  unfold archiveRows
  rw [mem_append, mem_flatMap]
  constructor
  · rintro (hr | ⟨doc, hdoc, hr⟩)
    · exact (mem_shared.mp hr).1
    · obtain ⟨id, -, hexport⟩ := mem_filterMap.mp hdoc
      obtain ⟨meeting, hmeeting, -, rfl⟩ := exportMeeting_eq_some hexport
      rcases mem_all.mp hr with rfl | ⟨hr, -, -⟩
      · exact hmeeting
      · exact hr
  · intro hr
    -- A meeting's own rows are in the document of that meeting.
    have hdocument : ∀ id ∈ db.meetingIds, ∃ meeting : RowOf .meetings, meeting.val ∈ db.rows ∧
        meeting.val.get "id" = .text id ∧
        ⟨meetingSchema, meeting, db.fetchByMeeting id⟩ ∈ db.documents := by
      intro id hid
      obtain ⟨doc, hdoc⟩ := isSome_iff_exists.mp (exportMeeting_isSome hid)
      obtain ⟨meeting, hmeeting, hmeetingId, rfl⟩ := exportMeeting_eq_some hdoc
      exact ⟨meeting, hmeeting, hmeetingId, mem_filterMap.mpr ⟨id, hid, hdoc⟩⟩
    rcases table_cases r.table with htable | htable | htable
    · exact .inl (mem_shared.mpr ⟨hr, htable, hdb.apart r hr⟩)
    · have hcolumn : (columns r.table).find? (·.name == "id") = some (text "id") := by
        rw [htable]
        decide
      obtain ⟨id, hid⟩ := r.get_text hcolumn
      obtain ⟨meeting, hmeeting, hmeetingId, hdoc⟩ :=
        hdocument id (mem_meetingIds.mpr ⟨r, hr, htable, hid⟩)
      refine .inr ⟨_, hdoc, mem_all.mpr (.inl (eq_of_primary hdb.keys hr hmeeting ?_))⟩
      unfold Row.primary
      rw [htable, meeting.property]
      show (Table.meetings, [r.get "id"]) = (Table.meetings, [meeting.val.get "id"])
      rw [hid, hmeetingId]
    · obtain ⟨id, hmem, hid⟩ := hdb.meeting hr htable
      obtain ⟨meeting, -, -, hdoc⟩ := hdocument id hmem
      exact .inr ⟨_, hdoc, mem_all.mpr (.inr ⟨hr, htable, hid⟩)⟩

/-! ## What an export leaves is read back -/

/-- The JSON of a library's documents is read back as it was. -/
structure Json.Reads (json : Json) (db : Library) (now : ℤ) (includeAudio : Bool) : Prop where
  manifest : json.manifest.fromSlice (json.manifest.toVec (db.manifest now includeAudio)) =
    some (db.manifest now includeAudio)
  meeting : ∀ doc ∈ db.documents, json.meeting.fromSlice (json.meeting.toVec doc) = some doc

theorem mapM_filterMap {ε α β : Type} {f : α → Except ε β} {g : α → Option β} {xs : List α}
    (h : ∀ x ∈ xs, ∃ y, g x = some y ∧ f x = .ok y) : xs.mapM f = .ok (xs.filterMap g) := by
  induction xs with
  | nil => rfl
  | cons x xs ih =>
    obtain ⟨⟨y, hg, hf⟩, hrest⟩ := forall_mem_cons.mp h
    rw [mapM_cons, hf, ok_bind, ih hrest, filterMap_cons, hg]
    rfl

variable {json : Json} {archive : Archive}

theorem readArchive_exported (hjson : json.Reads db now includeAudio)
    (hmanifest : archive.manifest = some (json.manifest.toVec (db.manifest now includeAudio)))
    (hmeeting : ∀ id ∈ db.meetingIds,
      archive.meeting id = (db.exportMeeting id).map json.meeting.toVec) :
    readArchive json archive = .ok (db.manifest now includeAudio, db.documents) := by
  have hdocs : db.meetingIds.mapM (readMeeting json archive) = .ok db.documents := by
    refine mapM_filterMap fun id hid => ?_
    obtain ⟨doc, hdoc⟩ := isSome_iff_exists.mp (exportMeeting_isSome hid)
    refine ⟨doc, hdoc, ?_⟩
    have hread := hjson.meeting doc (mem_filterMap.mpr ⟨id, hid, hdoc⟩)
    obtain ⟨meeting, -, hmeetingId, rfl⟩ := exportMeeting_eq_some hdoc
    unfold readMeeting
    rw [hmeeting id hid, hdoc, map_some]
    simp only [okOr, MeetingDoc.fromJson, hread, ok_bind, filter_some, beq_self_eq_true,
      if_true, hmeetingId, bne_self_eq_false, refuseIf_false]
    rfl
  unfold readArchive
  rw [hmanifest]
  simp only [okOr, ok_bind, hjson.manifest]
  rw [show (db.manifest now includeAudio).meetings = db.meetingIds from rfl, hdocs]
  rfl

/-- The media that are copied replace neither the manifest nor a document. -/
def Unclobbered (options : ArchiveOptions) (db : Library) : Prop :=
  ∀ root ∈ options.dataRoot, ∀ w ∈ db.wanted options.includeAudio, (root w.1).isSome →
    w.1 ≠ "library.json" ∧ ∀ id ∈ db.meetingIds, w.1 ≠ documentName id

theorem documentName_head (id : String) :
    (documentName id).toList.head? = some 'm' ∨ (documentName id).toList.head? = some '/' := by
  unfold documentName documentStem joinPath
  split
  · next habsolute =>
    right
    rw [String.toList_append, head?_append, beq_iff_eq.mp habsolute]
    rfl
  · left
    simp only [String.toList_append, head?_append]
    rfl

theorem documentName_ne {name : String} (hm : name.toList.head? ≠ some 'm')
    (hslash : name.toList.head? ≠ some '/') : documentName id ≠ name := by
  rintro rfl
  exact (documentName_head id).elim hm hslash

theorem templates_head (name : String) : ("templates/" ++ name).toList.head? = some 't' := by
  rw [String.toList_append]
  rfl

section Exported
variable {render : Render} {options : ArchiveOptions} {now : ℤ} {db : Library} {name : String}

theorem mem_mediaPuts (h : name ∈ (match options.dataRoot with
      | none => []
      | some root => mediaPuts root (db.wanted options.includeAudio)).map Prod.fst) :
    ∃ root ∈ options.dataRoot, ∃ w ∈ db.wanted options.includeAudio, (root w.1).isSome ∧
      w.1 = name := by
  cases hroot : options.dataRoot with
  | none =>
    rw [hroot] at h
    cases h
  | some root =>
    rw [hroot] at h
    obtain ⟨p, hp, rfl⟩ := mem_map.mp h
    obtain ⟨w, hw, hmap⟩ := mem_filterMap.mp hp
    obtain ⟨content, hcontent, rfl⟩ := map_eq_some_iff.mp hmap
    exact ⟨root, rfl, w, hw, isSome_iff_exists.mpr ⟨content, hcontent⟩, rfl⟩

theorem mem_templatePuts {entries : List (String × Node)}
    (h : name ∈ (templatePuts entries).map Prod.fst) : ∃ file, name = "templates/" ++ file := by
  obtain ⟨p, hp, rfl⟩ := mem_map.mp h
  obtain ⟨e, -, hsome⟩ := mem_filterMap.mp hp
  split at hsome
  · obtain ⟨content, -, rfl⟩ := map_eq_some_iff.mp hsome
    exact ⟨e.1, rfl⟩
  · cases hsome

theorem documentName_not_shared (h : Unclobbered options db) (hid : id ∈ db.meetingIds) :
    documentName id ∉ (sharedPuts render options now db).map Prod.fst := by
  intro hmem
  unfold sharedPuts at hmem
  rw [map_append, map_append, mem_append, mem_append] at hmem
  rcases hmem with (hmem | hmem) | hmem
  · have hfixed : documentName id = "library.json" ∨ documentName id = "README.txt" := by
      simpa using hmem
    rcases hfixed with heq | heq
    · exact documentName_ne (by decide) (by decide) heq
    · exact documentName_ne (by decide) (by decide) heq
  · obtain ⟨file, hfile⟩ := mem_templatePuts hmem
    refine documentName_ne ?_ ?_ hfile
    · rw [templates_head]
      decide
    · rw [templates_head]
      decide
  · obtain ⟨root, hroot, w, hw, hsome, heq⟩ := mem_mediaPuts hmem
    exact (h root hroot w hw hsome).2 id hid heq

theorem manifest_put (h : Unclobbered options db) (files : String → Option Content) :
    putAll files (sharedPuts render options now db) "library.json" =
      some (render.json.manifest.toVec (db.manifest now options.includeAudio)) := by
  unfold sharedPuts
  rw [putAll_append, putAll_append, putAll_other, putAll_other]
  · have hlibrary : isTemporary "library.json" = false := by decide
    have hreadme : isTemporary "README.txt" = false := by decide
    rw [← singleton_append, putAll_append, putAll_singleton hlibrary,
      putAll_singleton hreadme, Function.update_of_ne (by decide), Function.update_self]
  · intro hmem
    obtain ⟨file, hfile⟩ := mem_templatePuts hmem
    have hhead := templates_head file
    rw [← hfile] at hhead
    exact absurd hhead (by decide)
  · intro hmem
    obtain ⟨root, hroot, w, hw, hsome, heq⟩ := mem_mediaPuts hmem
    exact (h root hroot w hw hsome).1 heq

/-- An export that skipped nothing leaves the documents of the library. -/
theorem exported_files (hdb : Consistent indexes db.rows) {dest e : Dest} {report : ArchiveReport}
    (h : (exportLibrary render options now db).Returns dest report e)
    (hfresh : ∀ id ∈ db.meetingIds, skips render options.resume dest.settled id = false)
    (hclear : Unclobbered options db) :
    e.files "library.json" =
        some (render.json.manifest.toVec (db.manifest now options.includeAudio)) ∧
      ∀ id ∈ db.meetingIds, e.files (documentName id) = db.document render id := by
  obtain ⟨haccepted, htemplates⟩ := exportLibrary_ok h
  obtain ⟨_, e', ⟨-, hstate⟩, hsettled, -⟩ := exportLibrary_returns render options now db
    htemplates haccepted
  obtain rfl := h.2.symm.trans hstate
  refine ⟨?_, fun id hid => ?_⟩
  · rw [← Dest.settled_eq (by decide), hsettled]
    exact manifest_put hclear _
  · rw [← Dest.settled_eq (documentName_settled id), hsettled,
      putAll_other (documentName_not_shared hclear hid),
      afterMeetings_owned (meetingIds_nodup hdb) hid .document, hfresh id hid]
    rfl

end Exported

/-- The archive that an export left. -/
def IsExport (json : Json) (jsonValid : String → Bool) (archive : Archive) (db : Library) : Prop :=
  Sound jsonValid db ∧ ∃ markdown options now dest report e templates media,
    (exportLibrary ⟨json, markdown⟩ options now db).Returns dest report e ∧
    (∀ id ∈ db.meetingIds, skips ⟨json, markdown⟩ options.resume dest.settled id = false) ∧
    Unclobbered options db ∧ json.Reads db now options.includeAudio ∧
    archive = e.archive templates media

theorem IsExport.read (h : IsExport json jsonValid archive db) :
    ∃ now includeAudio, readArchive json archive =
      .ok (db.manifest now includeAudio, db.documents) := by
  obtain ⟨hdb, markdown, options, now, dest, report, e, templates, media, hrun, hfresh, hclear,
    hjson, rfl⟩ := h
  obtain ⟨hmanifest, hdocuments⟩ := exported_files hdb.keys hrun hfresh hclear
  exact ⟨now, options.includeAudio, readArchive_exported hjson hmanifest hdocuments⟩

/-! ## Imports -/

/-- Nothing refers to settings and marks. -/
theorem foreignKeys_target (t : Table) :
    ∀ fk ∈ foreignKeys t, fk.target ≠ .settings ∧ fk.target ≠ .appMeta := by
  cases t <;> decide

variable {start : Library}

theorem resolved_beside (hdb : Sound jsonValid db) (hcompatible : Compatible start.rows db.rows)
    {rows : List Row} (hrows : ∀ q ∈ db.rows, (∀ p ∈ start.rows, p.primary ≠ q.primary) → q ∈ rows)
    (hstart : start.rows ⊆ rows) (hr : r ∈ db.rows) : resolved references rows r = true := by
  refine all_eq_true.mpr fun target htarget => ?_
  obtain ⟨q, hq, hmeets⟩ := any_eq_true.mp (all_eq_true.mp (hdb.references r hr) target htarget)
  refine any_eq_true.mpr ⟨q, ?_, hmeets⟩
  obtain ⟨fk, hfk, rfl⟩ := mem_map.mp htarget
  have htable : q.table = fk.target := beq_iff_eq.mp (Bool.and_eq_true_iff.mp hmeets).1
  obtain ⟨hsettings, hmarks⟩ := foreignKeys_target r.table fk (mem_filter.mp hfk).1
  by_cases hlocal : ∃ p ∈ start.rows, p.primary = q.primary
  · obtain ⟨p, hp, hkey⟩ := hlocal
    by_cases hsame : p = q
    · exact hsame ▸ hstart hp
    · have hpq : p.table = q.table := congrArg Prod.fst hkey
      have hexempt := hcompatible p hp q hq hsame (clash_of_primary hkey)
      rw [hpq, htable] at hexempt
      exact absurd hexempt (not_or.mpr ⟨hsettings, hmarks⟩)
  · exact hrows q hq fun p hp hkey => hlocal ⟨p, hp, hkey⟩

/-- The rows of an export go in beside those that are there, and where another row has the key
    of one, that row stays and is reported. -/
structure Restored (start source after : Library) (conflicts : List Conflict) : Prop where
  rows : ∀ r, r ∈ after.rows ↔
    r ∈ start.rows ∨ r ∈ source.rows ∧ ∀ q ∈ start.rows, q.primary ≠ r.primary
  told : ∀ c, c ∈ conflicts ↔
    ∃ r ∈ source.rows, (∃ q ∈ start.rows, q.primary = r.primary ∧ q ≠ r) ∧ c = r.told .kept

theorem importArchiveRows_exported (h : IsExport json jsonValid archive db)
    (hstart : Consistent indexes start.rows) (hcompatible : Compatible start.rows db.rows) :
    ∃ after report, importArchiveRows json jsonValid archive start = .ok (after, report) ∧
      Restored start db after report.conflicts := by
  obtain ⟨now, includeAudio, hread⟩ := h.read
  obtain ⟨hdb, -⟩ := h
  have hbeside : Beside start.rows db start := ⟨fun _ h => h, fun _ h => .inl h⟩
  have hsource : ∀ r ∈ archiveRows (db.manifest now includeAudio) db.documents, r ∈ db.rows :=
    fun r hr => (mem_archiveRows hdb).mp hr
  obtain ⟨after, report, hinsert, hafter, ⟨added, hadded, hrows⟩, hall, htold⟩ :=
    insertRows_beside hdb hstart hcompatible hsource hbeside (.start db.documents.length)
  have hin : ∀ r ∈ db.rows, (∀ q ∈ start.rows, q.primary ≠ r.primary) → r ∈ after.rows :=
    fun r hr => hall r ((mem_archiveRows hdb).mpr hr)
  refine ⟨after, report, ?_, fun r => ⟨hafter.others r, ?_⟩, fun c => ?_⟩
  · unfold importArchiveRows importRows
    rw [hread, ok_bind]
    dsimp only
    rw [hinsert, ok_bind]
    have hresolved :
        (after.rows.drop start.rows.length).all (resolved references after.rows) = true := by
      rw [hrows, drop_left, ← hrows]
      exact all_eq_true.mpr fun r hr =>
        resolved_beside hdb hcompatible hin hafter.kept (hadded hr)
    rw [hresolved]
    rfl
  · rintro (hr | ⟨hr, hnone⟩)
    · exact hafter.kept hr
    · exact hin r hr hnone
  · rw [htold, show (ImportReport.start _).conflicts = [] from rfl, nil_append, List.mem_map]
    constructor
    · rintro ⟨r, hr, rfl⟩
      obtain ⟨hr, hother⟩ := mem_filter.mp hr
      exact ⟨r, hsource r hr, supplanted_eq_true.mp hother, rfl⟩
    · rintro ⟨r, hr, hother, rfl⟩
      refine ⟨r, mem_filter.mpr ⟨(mem_archiveRows hdb).mpr hr, ?_⟩, rfl⟩
      exact supplanted_eq_true.mpr hother

/-- What an import has done that succeeded. Of the meetings none has the id `0`, under which an
    alias would be entered whose meeting has one already. -/
structure Imported (db : Library) (rows added : List Row) (after : Library)
    (conflicts : List Conflict) : Prop where
  grows : Grows db added after
  taken : ∀ q ∈ added, Taken rows q
  placed : (∀ q ∈ db.rows ++ rows, q.table = .meetings → q.get "id" ≠ .text "0") →
    ∀ r ∈ rows, Placed after.rows conflicts r

/-- After an import that succeeds every row of the archive is placed, the rows that were there
    stand where they stood, only the meetings that received content have another generation,
    and the same archive again inserts nothing. An import that fails before its rows are
    committed changes nothing. The export of a library goes into any that it is compatible with,
    a new one with its own settings among them. -/
theorem import_places_rows (json : Json) (jsonValid : String → Bool) (options : ImportOptions)
    (archive : Archive) (s : Local) :
    (∀ report, (importLibraryWith json jsonValid options archive s).1 = .ok report →
      (∃ manifest docs added, readArchive json archive = .ok (manifest, docs) ∧
        Imported s.library (archiveRows manifest docs) added
          (importLibraryWith json jsonValid options archive s).2.library report.conflicts) ∧
      ∀ again, (importLibraryWith json jsonValid again archive
            (importLibraryWith json jsonValid options archive s).2).2.library =
          (importLibraryWith json jsonValid options archive s).2.library ∧
        ∀ told, (importLibraryWith json jsonValid again archive
            (importLibraryWith json jsonValid options archive s).2).1 = .ok told →
          told.rowsInserted = 0) ∧
    (∀ error, (importLibraryWith json jsonValid options archive s).1 = .error error →
      error ≠ .files → (importLibraryWith json jsonValid options archive s).2 = s) ∧
    ∀ db, IsExport json jsonValid archive db → Consistent indexes s.library.rows →
      Compatible s.library.rows db.rows →
      (∀ error, (importLibraryWith json jsonValid options archive s).1 = .error error →
        error = .files) ∧
      ∃ conflicts, Restored s.library db
          (importLibraryWith json jsonValid options archive s).2.library conflicts ∧
        ∀ report, (importLibraryWith json jsonValid options archive s).1 = .ok report →
          report.conflicts = conflicts := by
  cases hrows : importArchiveRows json jsonValid archive s.library with
  | error error =>
    rw [importLibraryWith_refused hrows]
    refine ⟨fun report hreport => (nomatch hreport), fun _ _ _ => rfl,
      fun db hdb hstart hcompatible => ?_⟩
    obtain ⟨after, report, hok, -⟩ := importArchiveRows_exported hdb hstart hcompatible
    exact absurd (hrows.symm.trans hok) (by simp)
  | ok t =>
    obtain ⟨hlibrary, hresult⟩ := importLibraryWith_committed options hrows
    obtain ⟨manifest, docs, hread, himport⟩ := importArchiveRows_ok hrows
    obtain ⟨hinsert, hresolved⟩ := importRows_ok himport
    obtain ⟨added, henters⟩ := insertRows_ok hinsert
    obtain ⟨again, hagain, hcount⟩ := importArchiveRows_again hrows
    refine ⟨fun report hreport => ?_, fun error herror hne => ?_,
      fun db hdb hstart hcompatible => ?_⟩
    · rw [hreport] at hresult
      rw [hlibrary, hresult.1]
      refine ⟨⟨manifest, docs, added, hread, henters.grows, henters.taken, fun hzero => ?_⟩,
        fun second => ?_⟩
      · refine henters.all_placed ?_ hzero
        rwa [henters.grows.rows, drop_left, ← henters.grows.rows] at hresolved
      · rw [← hlibrary] at hagain
        obtain ⟨hsame, hsecond⟩ := importLibraryWith_committed second hagain
        refine ⟨hsame.trans hlibrary, fun report' hreport' => ?_⟩
        rw [hreport'] at hsecond
        exact hsecond.2.trans hcount
    · rw [herror] at hresult
      exact absurd hresult hne
    · obtain ⟨after', report', hok, hrestored⟩ :=
        importArchiveRows_exported hdb hstart hcompatible
      rw [hrows] at hok
      cases hok
      rw [hlibrary]
      refine ⟨fun error herror => ?_, _, hrestored, fun report hreport => ?_⟩
      · rw [herror] at hresult
        exact hresult
      · rw [hreport] at hresult
        exact hresult.1

/-- Where summaries go. -/
def summarize (value : String) (updatedAt lamport : ℤ) (device : String) : RowOf .settings :=
  ⟨⟨.settings, [.text "summarize", .text value, .int updatedAt, .int lamport, .text device],
    by simp [columns, text, int, Column.fits]⟩, rfl⟩

def summarizeOff : RowOf .settings := summarize "\x7b\"policy\":\"off\"\x7d" 0 0 "local"

/-- The mark that the ninth migration leaves in a new library. -/
def bootstrapMark : RowOf .appMeta :=
  ⟨⟨.appMeta, [.text "summary_destination_bootstrap", .text "explicit-off-v1", .int 0],
    by decide⟩, rfl⟩

/-- A new library, as the migrations leave it. -/
def seededLibrary : Library where
  rows := [bootstrapMark.val, summarizeOff.val]
  generations _ := none
  random _ := ""
  drawn := 0

theorem seededLibrary_compatible (source : List Row) : Compatible seededLibrary.rows source := by
  intro q hq r _ _ _
  rcases List.mem_pair.mp hq with rfl | rfl
  · exact .inr rfl
  · exact .inl rfl

def summarizeOn : RowOf .settings :=
  summarize "\x7b\"policy\":\"anthropic\"\x7d" 1690000000000 1 "dev-1"

/-- A library with one tag, in which summaries have been turned on. -/
def sampleLibrary : Library where
  rows := [bootstrapMark.val, summarizeOn.val, hiringTag.val]
  generations _ := none
  random _ := ""
  drawn := 0

/-- Of the manifest only the schema is written out. -/
def sampleManifest : String := "\x7b\"schema\":\"flyonthewall/library@1\"\x7d"

def sampleJson : Json where
  manifest := {
    toVec _ := sampleManifest.toUTF8.toList
    fromSlice bytes := if bytes = sampleManifest.toUTF8.toList then
      some (sampleLibrary.manifest 1700000000000 false) else none }
  meeting := { toVec _ := [], fromSlice _ := none }

/-- Only the rows are imported. -/
def noFiles : ImportOptions := ⟨false, false, fun _ => .done, fun _ => .done⟩

def seededLocal : Local := ⟨seededLibrary, fun _ => none, fun _ => none⟩

theorem sampleLibrary_sound : Sound (fun _ => true) sampleLibrary where
  keys := by
    show List.Pairwise _ [_, _, _]
    decide
  checked := by decide
  apart := by decide +kernel
  references := by decide

/-- The library is exported, and imported into a new one: the tag is there, and the setting
    stays off, which is reported. -/
theorem import_places_rows_tag : ∃ archive report,
    IsExport sampleJson (fun _ => true) archive sampleLibrary ∧
    (importLibraryWith sampleJson (fun _ => true) noFiles archive seededLocal).1 = .ok report ∧
    summarizeOn.val.told .kept ∈ report.conflicts ∧
    hiringTag.val ∈ (importLibraryWith sampleJson (fun _ => true) noFiles archive
      seededLocal).2.library.rows := by
  have hids : sampleLibrary.meetingIds = [] := by decide +kernel
  have hdocuments : sampleLibrary.documents = [] := by
    rw [documents, hids]
    rfl
  obtain ⟨report, e, hrun, -⟩ := exportLibrary_returns ⟨sampleJson, fun _ => []⟩ plainExport
    1700000000000 sampleLibrary nofun
    (show Accepted noDestination from trivial)
  have hexport : IsExport sampleJson (fun _ => true) (e.archive none none) sampleLibrary := by
    refine ⟨sampleLibrary_sound, _, _, _, _, report, e, none, none, hrun, ?_,
      nofun, ⟨if_pos rfl, ?_⟩, rfl⟩
    · rw [hids]
      exact nofun
    · rw [hdocuments]
      exact nofun
  have hnew : Consistent indexes seededLibrary.rows := by
    show List.Pairwise _ [_, _]
    decide
  obtain ⟨-, conflicts, hrestored, hreport⟩ := (import_places_rows sampleJson (fun _ => true)
    noFiles (e.archive none none) seededLocal).2.2 sampleLibrary hexport hnew
    (seededLibrary_compatible _)
  obtain ⟨after, rows, hrows, -⟩ :=
    importArchiveRows_exported hexport hnew (seededLibrary_compatible _)
  have hok : (importLibraryWith sampleJson (fun _ => true) noFiles (e.archive none none)
      seededLocal).1 = .ok { rows with templatesRestored := 0, mediaRestored := 0 } := by
    unfold importLibraryWith
    rw [show seededLocal.library = seededLibrary from rfl, hrows]
    rfl
  refine ⟨e.archive none none, _, hexport, hok, ?_, ?_⟩
  · rw [hreport _ hok, hrestored.told]
    refine ⟨summarizeOn.val, by decide, ⟨summarizeOff.val, by decide, by decide, by decide⟩, rfl⟩
  · exact (hrestored.rows _).mpr (.inr ⟨by decide, by decide⟩)

/-- The library has the meeting, and the input generation of the meeting. -/
def meetingLocal : Local :=
  ⟨⟨[strayMeeting.val], fun id => if id = "mtg-1" then some "5f1c" else none, fun _ => "a7d2", 0⟩,
    fun _ => none, fun _ => none⟩

/-- An archive whose setting is not that of a new library. -/
def settingJson : Json where
  manifest := {
    toVec _ := []
    fromSlice _ := some ⟨librarySchema, 11, 1700000000000, "none", false, [], fun
      | .settings => [summarizeOn]
      | _ => []⟩ }
  meeting := { toVec _ := [], fromSlice _ := none }

/-- An import of a transcript renews the generation of the meeting that is there: the row
    `summary_input_epoch:mtg-1` of `app_meta` is not what it was. And a new library is not empty:
    it has a setting, which the archive's does not replace. -/
theorem import_renews_generation :
    ((importLibraryWith strayJson (fun _ => true) noFiles strayArchive meetingLocal).1.toBool =
      true ∧ meetingLocal.library.generations "mtg-1" = some "5f1c" ∧
    (importLibraryWith strayJson (fun _ => true) noFiles strayArchive
      meetingLocal).2.library.generations "mtg-1" = some "a7d2") ∧
    (importLibraryWith settingJson (fun _ => true) noFiles strayArchive seededLocal).1.toBool =
      true ∧ summarizeOn.val ∉ (importLibraryWith settingJson (fun _ => true) noFiles strayArchive
      seededLocal).2.library.rows := by
  decide

end FlyOnTheWall.Store
