/-
  The files of an import.

  The rows are committed before the first file is copied, and a copy replaces whatever has its
  name. `import_clean_iff` says for which archives and which local files that does no harm.

  * `Listing`: what the archive has to restore, in the order of its directories; `Fails` and
    `left` say of each part whether it is restored and what then stands under its path.
  * `attempted`: the parts that an import gets to, up to the first that it does not restore.
  * `runOps_restores`: the operations of the importer, seen on the listing.
-/
import FlyOnTheWall.Store.ImportRun

namespace FlyOnTheWall.Store

open Lib Option

/-! ## What is to be restored -/

/-- A directory, a file, or a template's name that the archive has given to a directory. -/
inductive Wanted
  | dir
  | file (content : Content)
  | unreadable
  deriving DecidableEq

/-- Paths below the target, in the order of the archive's directories. -/
abbrev Listing : Type := List (List String × Wanted)

def Node.template : Node → Wanted
  | .file content => .file content
  | .dir _ => .unreadable

/-- A directory and its Markdown files. -/
def markdownListing (entries : List (String × Node)) : Listing :=
  ([], .dir) ::
    (entries.filter fun e => isMarkdown e.1).map fun e => ([e.1], e.2.template)

mutual

/-- A tree, every directory before what it holds. -/
def Node.listing (path : List String) : Node → Listing
  | .file content => [(path, .file content)]
  | .dir entries => (path, .dir) :: entriesListing path entries

def entriesListing (path : List String) : List (String × Node) → Listing
  | [] => []
  | (name, node) :: rest => node.listing (path ++ [name]) ++ entriesListing path rest

end

def ImportOptions.templates (options : ImportOptions) (archive : Archive) : Listing :=
  if options.templatesDir then (archive.templates.map markdownListing).getD [] else []

def ImportOptions.media (options : ImportOptions) (archive : Archive) : Listing :=
  if options.dataRoot then
    (archive.media.map fun entries => (Node.dir entries).listing []).getD []
  else []

variable (io : List String → FileIo)

/-- It is not restored. -/
def Fails (i : List String × Wanted) : Prop := io i.1 ≠ .done ∨ i.2 = .unreadable

instance (i : List String × Wanted) : Decidable (Fails io i) := inferInstanceAs (Decidable (_ ∨ _))

/-- What stands under its path once it was restored, or was not. -/
def left (i : List String × Wanted) : Option Content :=
  match i.2, io i.1 with
  | .file content, .done => some content
  | .file _, .failed content | .unreadable, .failed content => content
  | .dir, _ | .unreadable, .done => none

variable (l : Listing)

def Complete : Prop := ∀ i ∈ l, ¬ Fails io i

instance : Decidable (Complete io l) := inferInstanceAs (Decidable (∀ i ∈ l, _))

/-- The parts an import gets to: up to the first that is not restored, and that one. -/
def attempted : Listing → Listing
  | [] => []
  | i :: l => i :: if Fails io i then [] else attempted l

/-- No file that is there gets another content. -/
def Keeps (files : Files) : Prop :=
  ∀ i ∈ l, ∀ content, left io i = some content → ∀ old, files i.1 = some old → content = old

/-- Every file is there with the content it gets. -/
def Same (files : Files) : Prop :=
  ∀ i ∈ l, ∀ content, left io i = some content → files i.1 = some content

/-! ## The operations -/

def Wanted.op (path : List String) : Wanted → FileOp
  | .dir => .makeDir path
  | .file content => .copy path (some content)
  | .unreadable => .copy path none

/-- The operation that restores a part of a listing. -/
def restores (i : List String × Wanted) : FileOp := i.2.op i.1

def put (files : Files) (i : List String × Wanted) : Files :=
  match left io i with
  | some content => Function.update files i.1 (some content)
  | none => files

/-- The files once the listing was restored, as far as that went. -/
def filesAfter (files : Files) : Files := (attempted io l).foldl (put io) files

variable {io : List String → FileIo} {i : List String × Wanted} {l : Listing}

theorem run_restores (files : Files) : (restores i).run (io (restores i).path) files =
    (decide (¬ Fails io i), put io files i) := by
  obtain ⟨path, wanted⟩ := i
  cases hio : io path with
  | done =>
    cases wanted <;>
      simp [restores, Wanted.op, FileOp.path, FileOp.run, put, left, Fails, hio]
  | failed content =>
    cases wanted <;> cases content <;>
      simp [restores, Wanted.op, FileOp.path, FileOp.run, put, left, Fails, hio]

theorem runOps_restores (l : Listing) (files : Files) :
    (runOps io (l.map restores) files).1.toBool = decide (Complete io l) ∧
      (runOps io (l.map restores) files).2 = filesAfter io l files := by
  induction l generalizing files with
  | nil => exact ⟨by simp [Complete, runOps, Except.toBool], rfl⟩
  | cons i l ih =>
    rw [List.map_cons, filesAfter, attempted]
    unfold runOps
    rw [run_restores]
    by_cases hfails : Fails io i
    · have hnot : ¬ Complete io (i :: l) := fun h => h i List.mem_cons_self hfails
      rw [if_pos hfails, decide_eq_false (not_not_intro hfails), decide_eq_false hnot]
      exact ⟨rfl, rfl⟩
    · obtain ⟨hok, hfiles⟩ := ih (put io files i)
      have hrest : Complete io (i :: l) ↔ Complete io l :=
        List.forall_mem_cons.trans (and_iff_right hfails)
      rw [if_neg hfails, decide_eq_true hfails, decide_eq_decide.mpr hrest, ← hok]
      refine ⟨?_, hfiles⟩
      dsimp only
      cases (runOps io (l.map restores) (put io files i)).1 <;> rfl

theorem put_apply (files : Files) (path : List String) : put io files i path =
    if i.1 = path then (left io i).or (files path) else files path := by
  unfold put
  cases left io i with
  | none => rw [none_or, ite_self]
  | some content =>
    rw [some_or]
    dsimp only
    rw [Function.update_apply]
    simp only [eq_comm]

/-- Where no path is listed twice, each ends as its own part leaves it. -/
theorem foldl_put (h : (l.map Prod.fst).Nodup) (files : Files) :
    (∀ path, path ∉ l.map Prod.fst → l.foldl (put io) files path = files path) ∧
      ∀ i ∈ l, l.foldl (put io) files i.1 = (left io i).or (files i.1) := by
  induction l generalizing files with
  | nil => exact ⟨fun _ _ => rfl, nofun⟩
  | cons j l ih =>
    obtain ⟨hnew, hrest⟩ := List.nodup_cons.mp h
    obtain ⟨hothers, hown⟩ := ih hrest (put io files j)
    rw [List.foldl_cons]
    refine ⟨fun path hpath => ?_, fun i hi => ?_⟩
    · rw [List.map_cons, List.mem_cons, not_or] at hpath
      rw [hothers path hpath.2, put_apply, if_neg (Ne.symm hpath.1)]
    · rcases List.mem_cons.mp hi with rfl | hi
      · rw [hothers _ hnew, put_apply, if_pos rfl]
      · rw [hown i hi, put_apply, if_neg]
        exact fun heq => hnew (heq ▸ List.mem_map_of_mem hi)

theorem attempted_of_complete (h : Complete io l) : attempted io l = l := by
  induction l with
  | nil => rfl
  | cons i l ih =>
    obtain ⟨hi, hrest⟩ := List.forall_mem_cons.mp h
    rw [attempted, if_neg hi, ih hrest]

theorem attempted_sublist (l : Listing) : (attempted io l).Sublist l := by
  induction l with
  | nil => exact .slnil
  | cons i l ih =>
    rw [attempted]
    split
    · exact (List.nil_sublist l).cons_cons i
    · exact ih.cons_cons i

section
variable {files : Files} (h : (l.map Prod.fst).Nodup)
include h

theorem keeps_iff (hcomplete : Complete io l) :
    (∀ path old, files path = some old → filesAfter io l files path = some old) ↔
      Keeps io l files := by
  unfold filesAfter
  rw [attempted_of_complete hcomplete]
  obtain ⟨hothers, hown⟩ := foldl_put h files
  constructor
  · intro hall i hi content hleft old hold
    have hafter := hall i.1 old hold
    rw [hown i hi, hleft] at hafter
    exact some.inj hafter
  · intro hkeeps path old hold
    by_cases hpath : path ∈ l.map Prod.fst
    · obtain ⟨i, hi, rfl⟩ := List.mem_map.mp hpath
      rw [hown i hi]
      cases hleft : left io i with
      | none => exact hold
      | some content => rw [hkeeps i hi content hleft old hold, some_or]
    · rw [hothers path hpath, hold]

theorem same_iff : filesAfter io l files = files ↔ Same io (attempted io l) files := by
  obtain ⟨hothers, hown⟩ :=
    foldl_put (h.sublist ((attempted_sublist l).map Prod.fst)) files
  constructor
  · intro heq i hi content hleft
    have hafter := congrFun heq i.1
    rw [filesAfter, hown i hi, hleft] at hafter
    exact hafter.symm
  · intro hsame
    funext path
    by_cases hpath : path ∈ (attempted io l).map Prod.fst
    · obtain ⟨i, hi, rfl⟩ := List.mem_map.mp hpath
      rw [filesAfter, hown i hi]
      cases hleft : left io i with
      | none => rfl
      | some content => rw [hsame i hi content hleft, some_or]
    · exact hothers path hpath

end

/-! ## The two copies of an import -/

theorem copyMarkdownDir_eq (entries : List (String × Node)) :
    copyMarkdownDir (some entries) = (markdownListing entries).map restores := by
  unfold copyMarkdownDir markdownListing
  rw [List.map_cons, List.map_map]
  refine congrArg (FileOp.makeDir [] :: ·) (List.map_congr_left fun e _ => ?_)
  obtain ⟨name, node⟩ := e
  cases node <;> rfl

mutual

theorem copyNode_eq (path : List String) (node : Node) :
    copyNode path node = (node.listing path).map restores := by
  cases node with
  | file content => simp [copyNode, Node.listing, restores, Wanted.op]
  | dir entries =>
    rw [copyNode]
    exact copyTree_eq path entries

theorem copyTree_eq (path : List String) (entries : List (String × Node)) :
    copyTree path entries = ((Node.dir entries).listing path).map restores := by
  rw [copyTree, Node.listing, List.map_cons, copyEntries_eq path entries]
  rfl

theorem copyEntries_eq (path : List String) (entries : List (String × Node)) :
    copyEntries path entries = (entriesListing path entries).map restores := by
  cases entries with
  | nil => simp [copyEntries, entriesListing]
  | cons e rest =>
    obtain ⟨name, node⟩ := e
    rw [copyEntries, entriesListing, List.map_append, copyNode_eq (path ++ [name]) node,
      copyEntries_eq path rest]

end

variable (options : ImportOptions) (archive : Archive)

theorem restoreTemplates_eq (files : Files) :
    (restoreTemplates options archive files).1.toBool =
        decide (Complete options.templatesIo (options.templates archive)) ∧
      (restoreTemplates options archive files).2 =
        filesAfter options.templatesIo (options.templates archive) files := by
  unfold restoreTemplates ImportOptions.templates
  split
  · cases archive.templates with
    | none => exact runOps_restores [] files
    | some entries =>
      rw [copyMarkdownDir_eq]
      exact runOps_restores _ files
  · exact runOps_restores [] files

theorem restoreMedia_eq (files : Files) :
    (restoreMedia options archive files).1.toBool =
        decide (Complete options.mediaIo (options.media archive)) ∧
      (restoreMedia options archive files).2 =
        filesAfter options.mediaIo (options.media archive) files := by
  unfold restoreMedia ImportOptions.media
  split
  · cases archive.media with
    | none => exact runOps_restores [] files
    | some entries =>
      rw [Option.map_some, Option.getD_some, copyTree_eq]
      exact runOps_restores _ files
  · exact runOps_restores [] files

variable {json : Json} {jsonValid : String → Bool} {archive : Archive} {db : Library}
  {report : ImportReport}

theorem importLibraryWith_files {s : Local}
    (h : importArchiveRows json jsonValid archive s.library = .ok (db, report)) :
    (importLibraryWith json jsonValid options archive s).1.toBool =
        (decide (Complete options.templatesIo (options.templates archive)) &&
          decide (Complete options.mediaIo (options.media archive))) ∧
      (importLibraryWith json jsonValid options archive s).2 =
        ⟨db, filesAfter options.templatesIo (options.templates archive) s.templates,
          if Complete options.templatesIo (options.templates archive) then
            filesAfter options.mediaIo (options.media archive) s.media
          else s.media⟩ := by
  obtain ⟨htemplates, htemplateFiles⟩ := restoreTemplates_eq options archive s.templates
  obtain ⟨hmedia, hmediaFiles⟩ := restoreMedia_eq options archive s.media
  unfold importLibraryWith
  rw [h]
  cases hfirst : restoreTemplates options archive s.templates with
  | mk result templates =>
    rw [hfirst] at htemplates htemplateFiles
    obtain rfl := htemplateFiles
    rw [← hmedia]
    cases result with
    | error e =>
      have hfails := of_decide_eq_false htemplates.symm
      rw [← htemplates, if_neg hfails]
      exact ⟨rfl, rfl⟩
    | ok n =>
      have hcomplete := of_decide_eq_true htemplates.symm
      rw [← htemplates, if_pos hcomplete]
      cases hsecond : restoreMedia options archive s.media with
      | mk result media =>
        rw [hsecond] at hmediaFiles
        obtain rfl := hmediaFiles
        cases result <;> exact ⟨rfl, rfl⟩

/-! ## Clean imports -/

/-- No local file has another content than before, and an error has changed nothing. What was
    done to files is in no report. -/
structure Clean (s : Local) (run : Except ImportError ImportReport × Local) : Prop where
  templates : ∀ path old, s.templates path = some old → run.2.templates path = some old
  media : ∀ path old, s.media path = some old → run.2.media path = some old
  undone : ∀ error, run.1 = .error error → run.2 = s

/-- The rows that an import commits change nothing if each has its key in the library. -/
theorem importArchiveRows_known {after : Library} {manifest : Manifest} {docs : List MeetingDoc}
    (hread : readArchive json archive = .ok (manifest, docs))
    (h : importArchiveRows json jsonValid archive db = .ok (after, report)) :
    after = db ↔ ∀ r ∈ archiveRows manifest docs, ∃ q ∈ db.rows, q.primary = r.primary := by
  obtain ⟨manifest', docs', hread', hrows⟩ := importArchiveRows_ok h
  rw [hread] at hread'
  cases hread'
  obtain ⟨hinsert, -⟩ := importRows_ok hrows
  constructor
  · rintro rfl r hr
    obtain ⟨added, henters⟩ := insertRows_ok hinsert
    exact henters.key hr
  · intro hknown
    obtain ⟨report', hagain, -⟩ : ∃ report',
        insertRows jsonValid (db, .start docs.length) (archiveRows manifest docs) =
          .ok (db, report') ∧ report'.rowsInserted = 0 :=
      insertRows_again (.start docs.length) hknown
    rw [hinsert] at hagain
    cases hagain
    rfl

/-- Every row of the archive has its key in the library. -/
def Known (json : Json) (archive : Archive) (db : Library) : Prop :=
  ∀ manifest docs, readArchive json archive = .ok (manifest, docs) →
    ∀ r ∈ archiveRows manifest docs, ∃ q ∈ db.rows, q.primary = r.primary

/-- The archives and local files with which an import is clean once its rows are committed:
    everything is restored and no file that is there gets another content; or something is not,
    and until then there was nothing new, neither a row nor a file. The media come second. -/
inductive Harmless (json : Json) (options : ImportOptions) (archive : Archive) (s : Local) : Prop
  | restored (templates : Complete options.templatesIo (options.templates archive))
      (media : Complete options.mediaIo (options.media archive))
      (keepsTemplates : Keeps options.templatesIo (options.templates archive) s.templates)
      (keepsMedia : Keeps options.mediaIo (options.media archive) s.media)
  | failed (incomplete : ¬ (Complete options.templatesIo (options.templates archive) ∧
        Complete options.mediaIo (options.media archive)))
      (known : Known json archive s.library)
      (sameTemplates : Same options.templatesIo
        (attempted options.templatesIo (options.templates archive)) s.templates)
      (sameMedia : Complete options.templatesIo (options.templates archive) →
        Same options.mediaIo (attempted options.mediaIo (options.media archive)) s.media)

section Committed
variable {s : Local} {options : ImportOptions}
  (hrows : importArchiveRows json jsonValid archive s.library = .ok (db, report))
include hrows

theorem known_iff : db = s.library ↔ Known json archive s.library := by
  obtain ⟨manifest, docs, hread, -⟩ := importArchiveRows_ok hrows
  refine (importArchiveRows_known hread hrows).trans ⟨fun h manifest' docs' hread' => ?_, ?_⟩
  · rw [hread] at hread'
    cases hread'
    exact h
  · intro h
    exact h manifest docs hread

variable (htemplates : ((options.templates archive).map Prod.fst).Nodup)
  (hmedia : ((options.media archive).map Prod.fst).Nodup)
include htemplates hmedia

/-- An import that restores everything is clean if no file gets another content. -/
theorem clean_iff_keeps (hfirst : Complete options.templatesIo (options.templates archive))
    (hsecond : Complete options.mediaIo (options.media archive)) :
    Clean s (importLibraryWith json jsonValid options archive s) ↔
      Keeps options.templatesIo (options.templates archive) s.templates ∧
        Keeps options.mediaIo (options.media archive) s.media := by
  obtain ⟨hok, hstate⟩ := importLibraryWith_files options hrows
  rw [decide_eq_true hfirst, decide_eq_true hsecond] at hok
  rw [if_pos hfirst] at hstate
  rw [← keeps_iff htemplates hfirst, ← keeps_iff hmedia hsecond]
  generalize importLibraryWith json jsonValid options archive s = run at hok hstate
  obtain ⟨result, after⟩ := run
  subst hstate
  refine ⟨fun h => ⟨h.templates, h.media⟩, fun h => ⟨h.1, h.2, fun error herror => ?_⟩⟩
  dsimp only at herror hok
  rw [herror] at hok
  cases hok

/-- One that does not is clean if it changes nothing. -/
theorem clean_iff_same (hfails : ¬ (Complete options.templatesIo (options.templates archive) ∧
      Complete options.mediaIo (options.media archive))) :
    Clean s (importLibraryWith json jsonValid options archive s) ↔
      Known json archive s.library ∧
        Same options.templatesIo (attempted options.templatesIo (options.templates archive))
          s.templates ∧
        (Complete options.templatesIo (options.templates archive) →
          Same options.mediaIo (attempted options.mediaIo (options.media archive)) s.media) := by
  obtain ⟨hok, hstate⟩ := importLibraryWith_files options hrows
  rw [← Bool.decide_and, decide_eq_false hfails] at hok
  rw [← same_iff htemplates, ← same_iff hmedia, ← known_iff hrows]
  generalize importLibraryWith json jsonValid options archive s = run at hok hstate
  obtain ⟨result, after⟩ := run
  subst hstate
  obtain ⟨error, rfl⟩ : ∃ error, result = .error error := by
    cases result with
    | error error => exact ⟨error, rfl⟩
    | ok report => cases hok
  constructor
  · intro h
    have hsame := h.undone error rfl
    refine ⟨congrArg Local.library hsame, congrArg Local.templates hsame, fun hfirst => ?_⟩
    have hsecond := congrArg Local.media hsame
    rwa [if_pos hfirst] at hsecond
  · rintro ⟨hlibrary, hfirst, hsecond⟩
    have hmedia : (if Complete options.templatesIo (options.templates archive) then
        filesAfter options.mediaIo (options.media archive) s.media else s.media) = s.media := by
      split
      · next hcomplete => exact hsecond hcomplete
      · rfl
    rw [hlibrary, hfirst, hmedia]
    exact ⟨fun _ _ h => h, fun _ _ h => h, fun _ _ => rfl⟩

end Committed

/-- An import whose rows are refused changes nothing. One whose rows are committed replaces no
    local file by another content, and leaves nothing behind when it fails, if and only if it is
    harmless; no path being listed twice in a directory of the archive. -/
theorem import_clean_iff (json : Json) (jsonValid : String → Bool) (options : ImportOptions)
    (archive : Archive) (s : Local)
    (htemplates : ((options.templates archive).map Prod.fst).Nodup)
    (hmedia : ((options.media archive).map Prod.fst).Nodup) :
    (∀ error, importArchiveRows json jsonValid archive s.library = .error error →
      importLibraryWith json jsonValid options archive s = (.error error, s)) ∧
    ∀ db report, importArchiveRows json jsonValid archive s.library = .ok (db, report) →
      (Clean s (importLibraryWith json jsonValid options archive s) ↔
        Harmless json options archive s) := by
  refine ⟨fun error => importLibraryWith_refused, fun db report hrows => ?_⟩
  by_cases hall : Complete options.templatesIo (options.templates archive) ∧
      Complete options.mediaIo (options.media archive)
  · rw [clean_iff_keeps hrows htemplates hmedia hall.1 hall.2]
    refine ⟨fun h => .restored hall.1 hall.2 h.1 h.2, fun h => ?_⟩
    cases h with
    | restored _ _ keepsTemplates keepsMedia => exact ⟨keepsTemplates, keepsMedia⟩
    | failed incomplete => exact absurd hall incomplete
  · rw [clean_iff_same hrows htemplates hmedia hall]
    refine ⟨fun h => .failed hall h.1 h.2.1 h.2.2, fun h => ?_⟩
    cases h with
    | restored templates media => exact absurd ⟨templates, media⟩ hall
    | failed _ known sameTemplates sameMedia => exact ⟨known, sameTemplates, sameMedia⟩

/-- An archive with one tag and one template. -/
def hiringTag : RowOf .tags :=
  ⟨⟨.tags, [.text "tag-1", .text "hiring", .null, .int 1690000000000, .int 1690000000000, .int 0,
    .text "dev-1"], by decide⟩, rfl⟩

def tagJson : Json where
  manifest := {
    toVec _ := []
    fromSlice _ := some ⟨librarySchema, 11, 1700000000000, "none", false, [], fun
      | .tags => [hiringTag]
      | _ => []⟩ }
  meeting := { toVec _ := [], fromSlice _ := none }

def tagArchive : Archive := ⟨some [], fun _ => none, some [("mine.md", .file [98])], none⟩

/-- An empty library, and one template. -/
def templateLocal (name : String) : Local :=
  ⟨⟨[], fun _ => none, fun _ => "", 0⟩, fun path => if path = [name] then some [97] else none,
    fun _ => none⟩

def templatesOnly (io : List String → FileIo) : ImportOptions := ⟨true, false, io, fun _ => .done⟩

/-- Beside a template of another name the import is harmless, and clean. -/
theorem import_keeps_other_template :
    Harmless tagJson (templatesOnly fun _ => .done) tagArchive (templateLocal "other.md") ∧
      Clean (templateLocal "other.md") (importLibraryWith tagJson (fun _ => true)
        (templatesOnly fun _ => .done) tagArchive (templateLocal "other.md")) := by
  have hlisting : (templatesOnly fun _ => .done).templates tagArchive =
      [([], .dir), (["mine.md"], .file [98])] := rfl
  have hmedia : (templatesOnly fun _ => .done).media tagArchive = [] := rfl
  have hharmless : Harmless tagJson (templatesOnly fun _ => .done) tagArchive
      (templateLocal "other.md") := by
    refine .restored ?_ ?_ ?_ ?_
    · rw [hlisting]
      simp [Complete, Fails, templatesOnly]
    · rw [hmedia]
      nofun
    · rw [hlisting]
      intro i hi content _ old hold
      rcases List.mem_pair.mp hi with rfl | rfl
      · cases hold
      · cases hold
    · rw [hmedia]
      nofun
  refine ⟨hharmless, ?_⟩
  have hclean := (import_clean_iff tagJson (fun _ => true) (templatesOnly fun _ => .done) tagArchive
    (templateLocal "other.md") (by rw [hlisting]; decide) (by rw [hmedia]; decide)).2
  cases hrows : importArchiveRows tagJson (fun _ => true) tagArchive
      (templateLocal "other.md").library with
  | error error =>
    have hok : (importArchiveRows tagJson (fun _ => true) tagArchive
      (templateLocal "other.md").library).toBool = true := by decide
    rw [hrows] at hok
    cases hok
  | ok result => exact (hclean result.1 result.2 hrows).mpr hharmless

/-- The target is opened and emptied, and then the copy fails. -/
def truncates (path : List String) : FileIo := if path = [] then .done else .failed (some [])

/-- The import of the archive into a library with a template of the same name. -/
def importTag (io : List String → FileIo) : Except ImportError ImportReport × Local :=
  importLibraryWith tagJson (fun _ => true) (templatesOnly io) tagArchive (templateLocal "mine.md")

/-- The local template is replaced by another one and nothing says so; and if the copy fails,
    with the target already truncated, the error leaves the tag in the library and the template
    empty. -/
theorem import_replaces_template :
    ((importTag fun _ => .done).1.toOption.map ImportReport.conflicts = some [] ∧
      (templateLocal "mine.md").templates ["mine.md"] = some [97] ∧
      (importTag fun _ => .done).2.templates ["mine.md"] = some [98]) ∧
    (importTag truncates).1.toBool = false ∧
      (importTag truncates).2.library.rows.length = 1 ∧
      (importTag truncates).2.templates ["mine.md"] = some [] := by
  decide

end FlyOnTheWall.Store
