/-
  Where an export writes, and where it copies from.

  Meeting ids and relative paths come from rows, and rows come from archives too. The export
  joins them to its paths as they are. `export_confined_iff`: it stays inside the destination
  and the data root exactly if every meeting id and every recorded path does.
-/
import FlyOnTheWall.Store.ExportRun
import FlyOnTheWall.Store.ImportRun

namespace FlyOnTheWall.Store

open Lib Prog List Preserves

/-! ## Effects -/

/-- The file is inside the destination, and what is copied is inside the data root. -/
def Effect.Inside (dest root : Location) : Effect → Prop
  | .write name => dest <+: resolve dest name
  | .copy rel name => root <+: resolve root rel ∧ dest <+: resolve dest name

def Dest.Confined (dest root : Location) (d : Dest) : Prop :=
  ∀ effect ∈ d.log, effect.Inside dest root

section Log
variable {dest root : Location} {effect : Effect} {name : String} {d t : Dest}

theorem Dest.Confined.filling (h : d.Confined dest root) (hfill : Dest.Filling effect name d t)
    (heffect : effect.Inside dest root) : t.Confined dest root := by
  intro other hother
  rw [hfill.log] at hother
  rcases mem_append.mp hother with hother | hother
  · exact h other hother
  · rw [mem_singleton.mp hother]
    exact heffect

theorem Dest.Confined.rename {source target : String} (h : d.Confined dest root)
    (htarget : (Effect.write target).Inside dest root) :
    (d.rename source target).Confined dest root := by
  intro other hother
  rcases mem_append.mp hother with hother | hother
  · exact h other hother
  · rw [mem_singleton.mp hother]
    exact htarget

end Log

/-! ## The files of a document -/

theorem temporary_eq (stem extension : String) (h : '/' ∉ extension.toList) :
    ∃ ending, temporary stem extension = stem ++ ending ∧ 2 < ending.toList.length ∧
      '/' ∉ ending.toList ∧ ending.toList.getLast? = some 'p' := by
  unfold temporary
  split
  · refine ⟨extension ++ ".tmp", String.append_assoc, ?_, ?_, ?_⟩
    · rw [String.toList_append, length_append]
      show 2 < _ + 4
      omega
    · rw [String.toList_append, mem_append]
      exact not_or.mpr ⟨h, by decide⟩
    · rw [String.toList_append, getLast?_append]
      rfl
  · exact ⟨".tmp", rfl, by decide, by decide, by decide⟩

/-- An extension that is one, and that is not `.tmp`. -/
structure DocumentExtension (extension : String) : Prop where
  long : 2 < extension.toList.length
  plain : '/' ∉ extension.toList
  last : extension.toList.getLast? ≠ some 'p'

variable {dest : Location} {extension stem : String}

/-- A document and its temporary file are inside if and only if their directory is. -/
theorem document_inside_iff (hextension : DocumentExtension extension) :
    dest <+: resolve dest (temporary stem extension) ∧ dest <+: resolve dest (stem ++ extension) ↔
      dest <+: parent dest stem := by
  obtain ⟨ending, htemporary, hlong, hplain, hlast⟩ := temporary_eq stem extension hextension.plain
  rw [htemporary, resolve_append hlong hplain, resolve_append hextension.long hextension.plain]
  constructor
  · rintro ⟨htmp, hdocument⟩
    rcases prefix_concat_iff.mp htmp with htmp | htmp
    · rcases prefix_concat_iff.mp hdocument with hdocument | hdocument
      · -- The two names differ in their last letter.
        have hnames := append_cancel_left (singleton_inj.mp
          (append_cancel_left (htmp.symm.trans hdocument)))
        exact absurd (hnames ▸ hlast) hextension.last
      · exact hdocument
    · exact htmp
  · intro h
    exact ⟨h.trans (prefix_append _ _), h.trans (prefix_append _ _)⟩

variable {root : Location}

theorem writeAtomic_confined (hextension : DocumentExtension extension)
    (h : dest <+: parent dest stem) (content : Content) :
    (writeAtomic stem extension content).Preserves (Dest.Confined dest root) := by
  obtain ⟨htmp, hdocument⟩ := (document_inside_iff hextension).mpr h
  exact writeAtomic_preserves content (fun _ _ hd hfill => hd.filling hfill htmp)
    fun _ hd => hd.rename hdocument

theorem json_extension : DocumentExtension ".json" := ⟨by decide, by decide, by decide⟩
theorem md_extension : DocumentExtension ".md" := ⟨by decide, by decide, by decide⟩
theorem txt_extension : DocumentExtension ".txt" := ⟨by decide, by decide, by decide⟩

/-! ## A confined export -/

/-- Every meeting's files and every recorded path stay inside. -/
structure Library.Inside (dest root : Location) (db : Library) : Prop where
  documents : ∀ id ∈ db.meetingIds,
    dest <+: parent dest (documentStem id) ∧ dest <+: parent dest (markdownStem id)
  media : ∀ w ∈ db.wanted true, NamesFile w.1 →
    root <+: resolve root w.1 ∧ dest <+: resolve dest w.1

theorem wanted_subset (db : Library) (includeAudio : Bool) :
    db.wanted includeAudio ⊆ db.wanted true := by
  cases includeAudio with
  | true => exact fun _ h => h
  | false =>
    unfold Library.wanted
    rw [if_neg Bool.false_ne_true, append_nil]
    exact subset_append_left _ _

theorem parent_plain {base : Location} {p : String} (h : '/' ∉ p.toList) :
    parent base p = base := by
  have habsolute : isAbsolute p = false := by
    refine Bool.eq_false_iff.mpr fun hp => h (mem_of_mem_head? ?_)
    exact beq_iff_eq.mp hp
  unfold parent scanned
  rw [habsolute, foldl_scan_name h]
  rfl

theorem template_inside {name : String} (hname : isMarkdown name = true)
    (hplain : '/' ∉ name.toList) : dest <+: resolve dest ("templates/" ++ name) := by
  obtain ⟨hlong, -⟩ := Bool.and_eq_true_iff.mp hname
  have hscanned : scanned dest "templates/" = (dest ++ ["templates".toList], []) := rfl
  have hlength : 2 < name.toList.length := by
    rw [String.length_toList]
    have := of_decide_eq_true hlong
    omega
  rw [resolve_append hlength hplain, parent, hscanned, append_assoc]
  exact prefix_append _ _

theorem exportLibrary_confined {db : Library} (h : db.Inside dest root) (render : Render)
    (options : ArchiveOptions) (now : ℤ) :
    (exportLibrary render options now db).Preserves (Dest.Confined dest root) := by
  have hprepare : prepareDestination.Preserves (Dest.Confined dest root) := by
    refine read.bind fun place => ?_
    split
    · exact step fun _ hd => hd
    · exact read
    · exact pure
    · exact read
  have hcreate : createDir.Preserves (Dest.Confined dest root) := step fun _ hd => hd
  have hmeetings : (exportMeetings render options.resume db db.meetingIds).Preserves
      (Dest.Confined dest root) :=
    exportMeetings_preserves fun id hid content =>
      ⟨writeAtomic_confined json_extension (h.documents id hid).1 content,
        writeAtomic_confined md_extension (h.documents id hid).2 content⟩
  have hplain : ∀ p : String, '/' ∉ p.toList → dest <+: parent dest p :=
    fun p hp => (parent_plain hp).symm ▸ prefix_refl dest
  have hshared : (exportShared render options now db).Preserves (Dest.Confined dest root) := by
    refine exportShared_preserves (fun content => ⟨?_, ?_⟩) (fun e he hname content => ?_)
      fun files hfiles w hw content hcontent => ?_
    · exact writeAtomic_confined json_extension (hplain _ (by decide)) content
    · exact writeAtomic_confined txt_extension (hplain _ (by decide)) content
    · refine writeFile_preserves content fun _ _ hd hfill =>
        hd.filling hfill (template_inside hname ?_)
      cases htemplates : options.templatesDir with
      | none =>
        rw [htemplates] at he
        cases he
      | some entries =>
        rw [htemplates] at he
        exact options.names entries htemplates e he
    · exact writeFile_preserves content fun _ _ hd hfill =>
        hd.filling hfill (h.media w (wanted_subset db _ hw)
          (options.files files hfiles w.1 (by rw [hcontent]; rfl)))
  exact hprepare.bind fun _ => hcreate.bind fun _ => hcreate.bind fun _ => hmeetings.bind fun _ =>
    hshared.bind fun _ => pure

/-! ## What is written is in the log -/

/-- Audio too, from a data root that has every file it can. -/
def takeEverything : ArchiveOptions where
  includeAudio := true
  dataRoot := some fun rel => if NamesFile rel then some [] else none
  files := by simp
  templatesDir := none
  names := no_templates
  resume := false

theorem exportLibrary_logs (render : Render) (now : ℤ) (db : Library) {start : Dest}
    (hstart : Accepted start) :
    (∀ id ∈ db.meetingIds, ∀ effect ∈ documentEffects id,
      effect ∈ (exportLibrary render takeEverything now db start).state.log) ∧
    ∀ w ∈ db.wanted true, NamesFile w.1 →
      .copy w.1 w.1 ∈ (exportLibrary render takeEverything now db start).state.log := by
  obtain ⟨report, e, hwhole, -, hdocuments, hmedia⟩ := exportLibrary_returns render takeEverything
    now db nofun hstart
  rw [hwhole.2]
  refine ⟨fun id hid effect heffect => hdocuments (mem_flatMap.mpr ⟨id, hid, heffect⟩),
    fun w hw hname => hmedia (mem_map.mpr ⟨(w.1, []), ?_, rfl⟩)⟩
  exact mem_filterMap.mpr ⟨w, hw, by simp only [if_pos hname, Option.map_some]⟩

def plainExport : ArchiveOptions := ⟨false, none, by simp, none, no_templates, false⟩

def noDestination : Dest := ⟨.missing, fun _ => none, []⟩

/-- Whatever is on the disks, an export writes only inside the destination and copies only from
    inside the data root if and only if every meeting id names files inside the destination
    and every recorded path that can name a file names one inside both. -/
theorem export_confined_iff (dest root : Location) (db : Library) :
    (∀ render options now start, start.log = [] → ∀ d : Dest,
      d ∈ (exportLibrary render options now db start).trace ∨
        d = (exportLibrary render options now db start).state → d.Confined dest root) ↔
      db.Inside dest root := by
  constructor
  · intro h
    let render : Render :=
      ⟨⟨⟨fun _ => [], fun _ => none⟩, ⟨fun _ => [], fun _ => none⟩⟩, fun _ => []⟩
    have hlast := h render takeEverything 0 noDestination rfl _ (.inr rfl)
    obtain ⟨hdocuments, hmedia⟩ := exportLibrary_logs render 0 db
      (show Accepted noDestination from trivial)
    have hinside : ∀ id ∈ db.meetingIds, ∀ effect ∈ documentEffects id, effect.Inside dest root :=
      fun id hid effect heffect => hlast effect (hdocuments id hid effect heffect)
    refine ⟨fun id hid => ⟨?_, ?_⟩, fun w hw hname => hlast _ (hmedia w hw hname)⟩
    · exact (document_inside_iff json_extension).mp
        ⟨hinside id hid (.write _) (by simp [documentEffects]),
          hinside id hid (.write (documentName id)) (by simp [documentEffects])⟩
    · exact (document_inside_iff md_extension).mp
        ⟨hinside id hid (.write (temporary (markdownStem id) ".md")) (by simp [documentEffects]),
          hinside id hid (.write (markdownName id)) (by simp [documentEffects])⟩
  · rintro h render options now start hstart d (hd | rfl)
    · refine (exportLibrary_confined h render options now).crash start ?_ d hd
      exact fun effect heffect => absurd (hstart ▸ heffect) not_mem_nil
    · refine (exportLibrary_confined h render options now).post start ?_
      exact fun effect heffect => absurd (hstart ▸ heffect) not_mem_nil

def strayMeeting : RowOf .meetings :=
  ⟨⟨.meetings, [.text "mtg-1", .text "Standup", .int 1690000000000, .null, .null, .text "UTC",
    .null, .null, .null, .null, .null, .null, .text "done", .null, .int 0, .text "inherit", .null,
    .int 1690000000000, .int 1690000000000, .int 0, .text "dev-1", .null, .null], by decide⟩, rfl⟩

def strayTranscript : RowOf .transcripts :=
  ⟨⟨.transcripts, [.text "tr-1", .text "mtg-1", .text "deepgram", .text "nova-3", .int 1, .null,
    .null, .null, .text "../.ssh/id_ed25519", .int 1690000000000, .int 1690000000000, .int 0,
    .text "dev-1"], by decide⟩, rfl⟩

/-- An archive with a transcript whose recorded path leads elsewhere. -/
def strayJson : Json where
  manifest := {
    toVec _ := []
    fromSlice _ := some ⟨librarySchema, 11, 1700000000000, "none", false, ["mtg-1"], fun _ => []⟩ }
  meeting := {
    toVec _ := []
    fromSlice _ := some ⟨meetingSchema, strayMeeting, fun
      | .transcripts => [strayTranscript]
      | _ => []⟩ }

def strayArchive : Archive := ⟨some [], fun _ => some [], none, none⟩

/-- The import takes the row, and the next export copies a file from beside the data root to
    beside the destination. -/
theorem export_escapes : ∃ db report,
    importArchiveRows strayJson (fun _ => true) strayArchive
      ⟨[], fun _ => none, fun _ => "", 0⟩ = .ok (db, report) ∧
    .copy "../.ssh/id_ed25519" "../.ssh/id_ed25519" ∈
      (exportLibrary ⟨strayJson, fun _ => []⟩ takeEverything 0 db noDestination).state.log ∧
    resolve ["home".toList, "data".toList] "../.ssh/id_ed25519" =
      ["home".toList, ".ssh".toList, "id_ed25519".toList] ∧
    resolve ["mnt".toList, "backup".toList] "../.ssh/id_ed25519" =
      ["mnt".toList, ".ssh".toList, "id_ed25519".toList] ∧
    ¬(Effect.copy "../.ssh/id_ed25519" "../.ssh/id_ed25519").Inside
      ["mnt".toList, "backup".toList] ["home".toList, "data".toList] := by
  have hrows : (importArchiveRows strayJson (fun _ => true) strayArchive
      ⟨[], fun _ => none, fun _ => "", 0⟩).toOption.map (fun t => t.1.wanted true) =
      some [("../.ssh/id_ed25519", false)] := by
    decide
  obtain ⟨⟨db, report⟩, himport, hwanted⟩ := Option.map_eq_some_iff.mp hrows
  obtain ⟨-, hmedia⟩ := exportLibrary_logs ⟨strayJson, fun _ => []⟩ 0 db
    (show Accepted noDestination from trivial)
  have hrow : ("../.ssh/id_ed25519", false) ∈ db.wanted true := by
    rw [hwanted]
    exact mem_singleton_self _
  refine ⟨db, report, toOption_eq_some.mp himport, hmedia _ hrow (by decide), ?_, ?_, ?_⟩
  · decide
  · decide
  · show ¬(_ <+: _ ∧ _ <+: _)
    decide

end FlyOnTheWall.Store
