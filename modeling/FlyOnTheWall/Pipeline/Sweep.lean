/-
  A retention sweep (`fotwd/src/retention.rs`): the library is read, a plan is made, the files of
  the plan are unlinked, and the rows of the meetings in the plan are marked.

  * `inventory`, `applyPlan`, `sweep`: the source's functions. Every call that can fail has its
    own entry in `Faults`; a failed removal leaves the file where it is.
  * `Kept`: a row is marked only if its file is gone, and what is not gone is counted and planned
    again.
  * `sweep_keeps_what_it_leaves_iff`: exactly which failures break that.

  A place is what a path text leads to on the file system at hand; two texts can lead to one
  place.
-/
import FlyOnTheWall.Store.Media

namespace FlyOnTheWall.Sweep
open Lib Retention MediaRows List

/-! ## The library, as the sweeper sees it -/

/-- An unknown kind is the default policy, never "retention off". -/
def policyFromColumns (kind : String) (days : Option ℕ) : RetentionPolicy :=
  if kind = "forever" then .forever
  else if kind = "until_transcribed" then .untilTranscribed
  else if kind = "days" then (match days with | some days => .days days | none => .default)
  else .default

def stateFromColumn (s : String) : TranscriptState :=
  if s = "ready" then .ready
  else if s = "transcribing" then .transcribing
  else if s = "failed" then .failed
  else .recording

def u32OfI64 (n : ℤ) : Option ℕ := if 0 ≤ n ∧ n < 2 ^ 32 then some n.toNat else none

/-- The data root, the file system under it and the reader of the stored settings. -/
structure Host (ι : Type) where
  root : String
  locate : String → ι
  parse : String → Option RetentionSettings

variable {ι : Type}

variable (host : Host ι)

/-- Where a path of the library lies. -/
def Host.place (rel : String) : ι := host.locate (joinPath host.root rel)

/-- What fails in one sweep, with the text of the error. Removals, deadlines and marks are
    counted from zero; an absent file is not a failure here. -/
structure Faults (ι : Type) where
  settings : Bool
  inventory : Option String
  unreadable : ι → Bool
  deadline : ℕ → Option String
  remove : ℕ → Option String
  mark : ℕ → Option String

/-- The database, and the sizes of the files. -/
structure Storage (ι : Type) where
  db : Db
  files : ι → Option ℕ

variable (faults : Faults ι)

variable (files : ι → Option ℕ)

def metadataLen (place : ι) : Option ℕ :=
  if faults.unreadable place then none else files place

def meetingAudio (row : AudioRow) : MeetingAudio where
  meetingId := row.meetingId
  startedAtMs := row.startedAtMs.toNat
  state := stateFromColumn row.state
  transcriptReadyAtMs := row.transcriptReadyAtMs.bind u64OfI64
  policy := policyFromColumns row.retainAudio (row.retainAudioDays.bind u32OfI64)
  audioBytes := u64Sum (fun f : AudioFile =>
    (f.bytes.or (metadataLen faults files (host.place f.relPath))).getD 0) row.audio
  audioPaths := row.audio.map AudioFile.relPath

def inventory (s : Storage ι) : List MeetingAudio :=
  (audioInventory s.db).map (meetingAudio host faults s.files)

def defaultSettings : RetentionSettings := ⟨30, 20 * 1024 * 1024 * 1024⟩

/-- A missing or unparseable value is the defaults. -/
def settings (db : Db) : RetentionSettings :=
  if faults.settings then defaultSettings
  else (((db.settings.find? (·.1 == "retention")).map Prod.snd).bind host.parse).getD
    defaultSettings

/-! ## Carrying out a plan -/

structure Applied (ι : Type) where
  reclaimed : ℕ
  errors : List (String × String)
  files : ι → Option ℕ

/-- The removals, counted from `i`. A file that is already gone counts as success. -/
def removeAll [DecidableEq ι] (host : Host ι) (faults : Faults ι) :
    ℕ → List String → (ι → Option ℕ) → Applied ι
  | _, [], files => ⟨0, [], files⟩
  | i, rel :: rest, files =>
    let place := host.place rel
    let size := (metadataLen faults files place).getD 0
    match faults.remove i with
    | some error =>
      let after := removeAll host faults (i + 1) rest files
      { after with errors := (joinPath host.root rel, error) :: after.errors }
    | none =>
      let after := removeAll host faults (i + 1) rest
        fun p => if p = place then none else files p
      { after with
        reclaimed := if (files place).isSome then (size + after.reclaimed) % 2 ^ 64
          else after.reclaimed }

def plannedPaths (plan : SweepPlan) : List String := plan.evictions.flatMap Eviction.paths

/-- Unlink every audio file in the plan. -/
def applyPlan [DecidableEq ι] (plan : SweepPlan) (files : ι → Option ℕ) : Applied ι :=
  removeAll host faults 0 (plannedPaths plan) files

/-- The deadline of every meeting is refreshed, whichever mode this is. -/
def refreshDeadlines (faults : Faults ι) (defaultDays : ℕ) (now : ℤ) :
    ℕ → List MeetingAudio → Db → Db × List String
  | _, [], db => (db, [])
  | i, m :: ms, db =>
    let deadline := (m.expiresAtMs defaultDays).bind fun d =>
      if (d : ℤ) ≤ i64Max then some (d : ℤ) else none
    match faults.deadline i with
    | some error =>
      let after := refreshDeadlines faults defaultDays now (i + 1) ms db
      (after.1, ("recording deadline for " ++ m.meetingId ++ ": " ++ error) :: after.2)
    | none =>
      refreshDeadlines faults defaultDays now (i + 1) ms (setPurgeAfter m.meetingId deadline now db)

/-- The rows of every meeting in the plan are marked. -/
def retireRows (faults : Faults ι) (atMs now : ℤ) : ℕ → List Eviction → Db → Db × List String
  | _, [], db => (db, [])
  | i, ev :: evs, db =>
    match faults.mark i with
    | some error =>
      let after := retireRows faults atMs now (i + 1) evs db
      (after.1, ("retiring rows for " ++ ev.meetingId ++ ": " ++ error) :: after.2)
    | none => retireRows faults atMs now (i + 1) evs (markAudioDeleted ev.meetingId atMs now db)

inductive SweepMode
  | dryRun
  | apply
  deriving DecidableEq, Repr

def SweepMode.deletes : SweepMode → Bool
  | .dryRun => false
  | .apply => true

structure SweepReport where
  mode : SweepMode
  nowMs : ℕ
  settings : RetentionSettings
  plan : SweepPlan
  bytesReclaimed : ℕ
  filesRemoved : ℕ
  errors : List String
  deriving DecidableEq, Repr

variable (nowMs : ℕ) (now : ℤ)

/-- The part of a sweep that deletes, after `errors`. -/
def carryOut [DecidableEq ι]
    (settings : RetentionSettings) (plan : SweepPlan) (errors : List String) (s : Storage ι) :
    SweepReport × Storage ι :=
  let applied := applyPlan host faults plan s.files
  let unlinking := applied.errors.map fun f => "unlinking " ++ f.1 ++ ": " ++ f.2
  let retired := retireRows faults (clampI64 nowMs) now 0 plan.evictions s.db
  let errors := errors ++ unlinking ++ retired.2
  let removed := (plan.evictions.map fun ev => ev.paths.length).sum -
    (errors.filter fun e => "unlinking ".isPrefixOf e).length
  (⟨.apply, nowMs, settings, plan, applied.reclaimed, removed, errors⟩, ⟨retired.1, applied.files⟩)

/-- Decide what to delete and, in `SweepMode.apply`, do it. `now` is the store's own clock. -/
def sweep [DecidableEq ι]
    (mode : SweepMode) (s : Storage ι) : Except String SweepReport × Storage ι :=
  match faults.inventory with
  | some error => (.error error, s)
  | none =>
    let settings := settings host faults s.db
    let meetings := inventory host faults s
    let plan := planSweep nowMs meetings settings
    let dated := refreshDeadlines faults settings.defaultDays now 0 meetings s.db
    if mode.deletes then
      let done := carryOut host faults nowMs now settings plan dated.2 ⟨dated.1, s.files⟩
      (.ok done.1, done.2)
    else
      (.ok ⟨mode, nowMs, settings, plan, 0, 0, dated.2⟩, ⟨dated.1, s.files⟩)

/-! ## What happens to a file -/

/-- One of the calls, counted from `i`, is for an entry with `P` and does not fail. -/
def Done {α : Type} (fault : ℕ → Option String) (P : α → Prop) (i : ℕ) (xs : List α) : Prop :=
  ∃ k x, xs[k]? = some x ∧ P x ∧ fault (i + k) = none

variable {α : Type} {fault : ℕ → Option String} {P : α → Prop} {i : ℕ}

theorem not_done_nil : ¬ Done fault P i [] := by
  rintro ⟨k, x, hnone, -⟩
  exact absurd hnone nofun

theorem done_cons {x : α} {xs : List α} :
    Done fault P i (x :: xs) ↔ (P x ∧ fault i = none) ∨ Done fault P (i + 1) xs := by
  constructor
  · rintro ⟨k, found, hfound, hP, hfault⟩
    cases k with
    | zero =>
      cases hfound
      exact .inl ⟨hP, hfault⟩
    | succ k =>
      refine .inr ⟨k, found, hfound, hP, ?_⟩
      rw [show i + 1 + k = i + (k + 1) by omega]
      exact hfault
  · rintro (⟨hP, hfault⟩ | ⟨k, found, hfound, hP, hfault⟩)
    · exact ⟨0, x, rfl, hP, hfault⟩
    · refine ⟨k + 1, found, hfound, hP, ?_⟩
      rw [show i + (k + 1) = i + 1 + k by omega]
      exact hfault

/-- One of the removals names the place and does not fail. -/
def Unlinked (i : ℕ) (paths : List String) (place : ι) : Prop :=
  Done faults.remove (fun rel => host.place rel = place) i paths

/-- A file is gone if it was, or if a removal of it went through; nothing else touches it. -/
theorem removeAll_files [DecidableEq ι] (paths : List String)
    (i : ℕ) (files : ι → Option ℕ) (place : ι) :
    (Unlinked host faults i paths place →
      (removeAll host faults i paths files).files place = none) ∧
    (¬ Unlinked host faults i paths place →
      (removeAll host faults i paths files).files place = files place) := by
  induction paths generalizing i files with
  | nil => exact ⟨fun h => absurd h not_done_nil, fun _ => rfl⟩
  | cons rel rest ih =>
    rw [Unlinked, done_cons, ← Unlinked, removeAll]
    cases hremove : faults.remove i with
    | some error =>
      have hskip : (host.place rel = place ∧ (some error : Option String) = none) ↔ False :=
        ⟨fun h => absurd h.2 nofun, False.elim⟩
      rw [hskip, false_or]
      exact ih (i + 1) files
    | none =>
      obtain ⟨hgone, hleft⟩ := ih (i + 1) fun p => if p = host.place rel then none else files p
      by_cases hrest : Unlinked host faults (i + 1) rest place
      · exact ⟨fun _ => hgone hrest, fun h => absurd (.inr hrest) h⟩
      · rw [hleft hrest]
        by_cases hplace : host.place rel = place
        · exact ⟨fun _ => if_pos hplace.symm, fun h => absurd (.inl ⟨hplace, rfl⟩) h⟩
        · refine ⟨fun h => ?_, fun _ => if_neg fun h => hplace h.symm⟩
          rcases h with h | h
          · exact absurd h.1 hplace
          · exact absurd h hrest

/-! ## What happens to a row -/

/-- The database after an update of complete rows: those of the meetings in `gone` are deleted. -/
structure Rewritten (gone : String → Prop) (db after : Db) : Prop where
  rest : after = { db with recordings := after.recordings }
  rows : ∃ f : Recording → Recording, after.recordings = db.recordings.map f ∧
    ∀ r, (f r).meetingId = r.meetingId ∧ audioFile (f r) = audioFile r ∧
      (f r).relPath = r.relPath ∧
      (r.state = .complete → gone r.meetingId → (f r).state = .deleted) ∧
      (¬ (r.state = .complete ∧ gone r.meetingId) → (f r).state = r.state)

theorem Rewritten.refl {gone : String → Prop} (hgone : ∀ id, ¬ gone id) (db : Db) :
    Rewritten gone db db :=
  ⟨rfl, id, (map_id _).symm, fun _ => ⟨rfl, rfl, rfl, fun _ h => absurd h (hgone _), fun _ => rfl⟩⟩

theorem Rewritten.trans {first second both : String → Prop} {a b c : Db}
    (hab : Rewritten first a b) (hbc : Rewritten second b c)
    (hboth : ∀ id, both id ↔ first id ∨ second id) : Rewritten both a c := by
  obtain ⟨f, hf, hrow⟩ := hab.rows
  obtain ⟨g, hg, hrow'⟩ := hbc.rows
  refine ⟨?_, g ∘ f, ?_, fun r => ?_⟩
  · rw [hbc.rest, hab.rest]
  · rw [hg, hf, map_map]
  · obtain ⟨hid, hfile, hpath, hdel, hsame⟩ := hrow r
    obtain ⟨hid', hfile', hpath', hdel', hsame'⟩ := hrow' (f r)
    refine ⟨hid'.trans hid, hfile'.trans hfile, hpath'.trans hpath, fun hc hgone => ?_,
      fun hnot => ?_⟩
    · by_cases hfirst : first r.meetingId
      · have hdeleted := hdel hc hfirst
        exact (hsame' fun h => absurd (hdeleted.symm.trans h.1) nofun).trans hdeleted
      · refine hdel' ((hsame fun h => hfirst h.2).trans hc) ?_
        rw [hid]
        exact ((hboth _).mp hgone).resolve_left hfirst
    · have hkept := hsame fun h => hnot ⟨h.1, (hboth _).mpr (.inl h.2)⟩
      refine (hsame' fun h => hnot ⟨hkept.symm.trans h.1, (hboth _).mpr (.inr ?_)⟩).trans hkept
      rw [← hid]
      exact h.2

theorem rewritten_setPurgeAfter (meetingId : String) (deadline : Option ℤ) (now : ℤ) (db : Db) :
    Rewritten (fun _ => False) db (setPurgeAfter meetingId deadline now db) := by
  refine ⟨rfl, _, rfl, fun r => ?_⟩
  rw [updateComplete]
  split
  · exact ⟨rfl, rfl, rfl, fun _ h => h.elim, fun _ => rfl⟩
  · exact ⟨rfl, rfl, rfl, fun _ h => h.elim, fun _ => rfl⟩

theorem rewritten_markAudioDeleted (meetingId : String) (atMs now : ℤ) (db : Db) :
    Rewritten (fun id => meetingId = id) db (markAudioDeleted meetingId atMs now db) := by
  refine ⟨rfl, _, rfl, fun r => ?_⟩
  rw [updateComplete]
  split
  · next h =>
    exact ⟨rfl, rfl, rfl, fun _ _ => rfl, fun hnot => absurd ⟨h.2, h.1.symm⟩ hnot⟩
  · next h =>
    exact ⟨rfl, rfl, rfl, fun hc hid => absurd ⟨hid.symm, hc⟩ h, fun _ => rfl⟩

theorem rewritten_refreshDeadlines (defaultDays : ℕ) (now : ℤ)
    (ms : List MeetingAudio) (i : ℕ) (db : Db) :
    Rewritten (fun _ => False) db (refreshDeadlines faults defaultDays now i ms db).1 := by
  induction ms generalizing i db with
  | nil => exact .refl (fun _ h => h) db
  | cons m ms ih =>
    rw [refreshDeadlines]
    cases faults.deadline i with
    | some error => exact ih (i + 1) db
    | none =>
      exact (rewritten_setPurgeAfter m.meetingId _ now db).trans (ih (i + 1) _) fun _ =>
        (or_self_iff).symm

/-- The rows of the meeting are marked: one of the evictions is of it, and marking it does not
    fail. -/
def Marked (i : ℕ) (evs : List Eviction) (meetingId : String) : Prop :=
  Done faults.mark (fun ev => ev.meetingId = meetingId) i evs

theorem rewritten_retireRows (atMs now : ℤ) (evs : List Eviction) (i : ℕ) (db : Db) :
    Rewritten (Marked faults i evs) db (retireRows faults atMs now i evs db).1 := by
  induction evs generalizing i db with
  | nil => exact .refl (fun _ => not_done_nil) db
  | cons ev evs ih =>
    rw [retireRows]
    cases hmark : faults.mark i with
    | some error =>
      have hskip : Marked faults i (ev :: evs) = Marked faults (i + 1) evs := by
        funext id
        refine propext (done_cons.trans (or_iff_right ?_))
        rw [hmark]
        exact fun h => absurd h.2 nofun
      rw [hskip]
      exact ih (i + 1) db
    | none =>
      refine (rewritten_markAudioDeleted ev.meetingId atMs now db).trans (ih (i + 1) _) fun id => ?_
      rw [Marked, done_cons, ← Marked, hmark]
      exact or_congr_left ⟨fun h => h.1, fun h => ⟨h, rfl⟩⟩

/-! ## The whole sweep -/

variable (nowMs : ℕ)

def planOf (s : Storage ι) : SweepPlan :=
  planSweep nowMs (inventory host faults s) (settings host faults s.db)

variable (mode : SweepMode) (s : Storage ι)

/-- The meetings whose rows a sweep marks. -/
def Retired (meetingId : String) : Prop :=
  (faults.inventory = none ∧ mode = .apply) ∧
    Marked faults 0 (planOf host faults nowMs s).evictions meetingId

/-- The places whose files a sweep removes. -/
def Removed (place : ι) : Prop :=
  (faults.inventory = none ∧ mode = .apply) ∧
    Unlinked host faults 0 (plannedPaths (planOf host faults nowMs s)) place

theorem sweep_effect [DecidableEq ι] (now : ℤ) (mode : SweepMode) (s : Storage ι) :
    Rewritten (Retired host faults nowMs mode s) s.db (sweep host faults nowMs now mode s).2.db ∧
    ∀ place,
      (Removed host faults nowMs mode s place →
        (sweep host faults nowMs now mode s).2.files place = none) ∧
      (¬ Removed host faults nowMs mode s place →
        (sweep host faults nowMs now mode s).2.files place = s.files place) := by
  rw [sweep]
  cases hinventory : faults.inventory with
  | some error =>
    have hno : ¬ (faults.inventory = none ∧ mode = .apply) := by
      rw [hinventory]
      exact fun h => absurd h.1 nofun
    exact ⟨.refl (fun _ h => hno h.1) s.db, fun _ => ⟨fun h => absurd h.1 hno, fun _ => rfl⟩⟩
  | none =>
    have hdated := rewritten_refreshDeadlines faults (settings host faults s.db).defaultDays now
      (inventory host faults s) 0 s.db
    cases mode with
    | dryRun =>
      have hno : ¬ (faults.inventory = none ∧ SweepMode.dryRun = .apply) := fun h =>
        absurd h.2 nofun
      refine ⟨hdated.trans (.refl (fun _ h => h) _) fun id => ?_, fun _ => ⟨fun h =>
        absurd h.1 hno, fun _ => rfl⟩⟩
      exact ⟨fun h => absurd h.1 hno, fun h => (or_self_iff.mp h).elim⟩
    | apply =>
      have hyes : faults.inventory = none ∧ SweepMode.apply = .apply := ⟨hinventory, rfl⟩
      refine ⟨hdated.trans (rewritten_retireRows faults _ now _ 0 _) fun id => ?_, fun place => ?_⟩
      · exact ⟨fun h => .inr h.2, fun h => ⟨hyes, h.resolve_left False.elim⟩⟩
      · obtain ⟨hgone, hleft⟩ := removeAll_files host faults
          (plannedPaths (planOf host faults nowMs s)) 0 s.files place
        exact ⟨fun h => hgone h.2, fun h => hleft fun hu => h ⟨hyes, hu⟩⟩

/-! ## What is counted and planned again -/

/-- A meeting past its window is planned, with every file the inventory lists for it. -/
theorem planned_of_expired {host : Host ι} {faults : Faults ι} {s : Storage ι} {row : AudioRow}
    {file : AudioFile} (hrow : row ∈ audioInventory s.db) (hfile : file ∈ row.audio) {nowMs : ℕ}
    {settings : RetentionSettings}
    (hexpired : Expired nowMs settings (meetingAudio host faults s.files row)) :
    ∃ ev ∈ (planSweep nowMs (inventory host faults s) settings).evictions,
      ev.meetingId = row.meetingId ∧ file.relPath ∈ ev.paths := by
  have hpath : file.relPath ∈ (meetingAudio host faults s.files row).audioPaths :=
    mem_map_of_mem hfile
  have hdue : Due nowMs settings (meetingAudio host faults s.files row) := by
    refine ⟨hexpired, fun h => ?_⟩
    rw [h.2] at hpath
    exact absurd hpath not_mem_nil
  refine ⟨aged settings (meetingAudio host faults s.files row), ?_, rfl, hpath⟩
  refine mem_append_left _ ?_
  rw [policyPass_eq]
  exact mem_map_of_mem (mem_filter.mpr ⟨mem_map_of_mem hrow, decide_eq_true hdue⟩)

/-- From `s` to `t` a row is marked as having no audio only if its file is gone, and a file that
    is still there is counted by the next sweep and planned as soon as its window has passed. -/
structure Kept (s t : Storage ι) : Prop where
  marked : ∀ (k : ℕ) (r r' : Recording), s.db.recordings[k]? = some r →
    t.db.recordings[k]? = some r' → r.state = .complete → r'.state ≠ .complete →
      t.files (host.place r.relPath) = none
  counted : ∀ r ∈ s.db.recordings, r.state = .complete → badRelPath r.relPath = false →
    r.meetingId ∈ s.db.meetings.map MeetingRow.id → t.files (host.place r.relPath) ≠ none →
      ∃ row ∈ audioInventory t.db, row.meetingId = r.meetingId ∧ audioFile r ∈ row.audio ∧
        ∀ (faults : Faults ι) (later : ℕ) (settings : RetentionSettings),
          Expired later settings (meetingAudio host faults t.files row) →
            ∃ ev ∈ (planSweep later (inventory host faults t) settings).evictions,
              ev.meetingId = r.meetingId ∧ r.relPath ∈ ev.paths

/-- The file of a row that the sweep marks, if it is there at all, is named by a planned removal
    that does not fail. -/
def RemovesWhatItMarks (nowMs : ℕ) (mode : SweepMode) (s : Storage ι) : Prop :=
  ∀ r ∈ s.db.recordings, r.state = .complete → Retired host faults nowMs mode s r.meetingId →
    s.files (host.place r.relPath) ≠ none →
      Unlinked host faults 0 (plannedPaths (planOf host faults nowMs s)) (host.place r.relPath)

/-- A sweep keeps account of what it leaves, whatever fails in it, exactly if every row it marks
    has its file removed. -/
theorem sweep_keeps_what_it_leaves_iff [DecidableEq ι] (host : Host ι) (faults : Faults ι)
    (nowMs : ℕ) (now : ℤ) (mode : SweepMode) (s : Storage ι) :
    Kept host s (sweep host faults nowMs now mode s).2 ↔
      RemovesWhatItMarks host faults nowMs mode s := by
  obtain ⟨hrewritten, hfiles⟩ := sweep_effect host faults nowMs now mode s
  generalize (sweep host faults nowMs now mode s).2 = t at hrewritten hfiles ⊢
  obtain ⟨f, hmap, hrow⟩ := hrewritten.rows
  constructor
  · intro hkept r hr hcomplete hretired hthere
    by_contra hleft
    obtain ⟨k, hk⟩ := mem_iff_getElem?.mp hr
    have hk' : t.db.recordings[k]? = some (f r) := by
      rw [hmap, getElem?_map, hk]
      rfl
    obtain ⟨-, -, -, hdeleted, -⟩ := hrow r
    have hgone := hkept.marked k r (f r) hk hk' hcomplete (by
      rw [hdeleted hcomplete hretired]
      exact nofun)
    rw [(hfiles _).2 fun hremoved => hleft hremoved.2] at hgone
    exact hthere hgone
  · intro hremoves
    -- a complete row whose file is there afterwards is not marked
    have hkeep : ∀ r ∈ s.db.recordings, r.state = .complete →
        t.files (host.place r.relPath) ≠ none → (f r).state = .complete := by
      intro r hr hcomplete hthere
      obtain ⟨-, -, -, -, hsame⟩ := hrow r
      refine (hsame fun h => hthere ?_).trans hcomplete
      by_cases hremoved : Removed host faults nowMs mode s (host.place r.relPath)
      · exact (hfiles _).1 hremoved
      · rw [(hfiles _).2 hremoved]
        by_contra hbefore
        exact hremoved ⟨h.2.1, hremoves r hr hcomplete h.2 hbefore⟩
    constructor
    · intro k r r' hr hr' hcomplete hmarked
      by_contra hthere
      rw [hmap, getElem?_map, hr] at hr'
      cases hr'
      exact hmarked (hkeep r (mem_of_getElem? hr) hcomplete hthere)
    · intro r hr hcomplete hpath hmeeting hthere
      obtain ⟨hid, hfile, hrel, -, -⟩ := hrow r
      have hmem : f r ∈ t.db.recordings := by
        rw [hmap]
        exact mem_map_of_mem hr
      have hlists := audioInventory_lists hmem (hkeep r hr hcomplete hthere) (by
        rw [hrel]
        exact hpath) (by
        rw [hid, hrewritten.rest]
        exact hmeeting)
      rw [hid, hfile] at hlists
      obtain ⟨row, hin, hrowid, haudio⟩ := hlists
      refine ⟨row, hin, hrowid, haudio, fun later_faults later settings hexpired => ?_⟩
      obtain ⟨ev, hev, hevid, hevpath⟩ := planned_of_expired hin haudio hexpired
      exact ⟨ev, hev, hevid.trans hrowid, hevpath⟩

/-! ## A removal that fails -/

/-- A meeting past its window, with one file. -/
def sampleStorage : Storage String where
  db :=
    { meetings := [⟨"m", 0, "ready", "until_transcribed", none, "d"⟩]
      transcripts := [⟨"t", "m", 0⟩]
      segments := [⟨"t", "m", "hello"⟩]
      recordings := [⟨"r", "m", "mic", "media/m/mic.opus", 48000, some 1000, some 3000, .complete,
        none, 0, none, 0, "d"⟩]
      settings := [] }
  files p := if p = "/data/media/m/mic.opus" then some 3000 else none

def sampleHost : Host String := ⟨"/data", id, fun _ => none⟩

/-- The first removal is refused. -/
def refusedRemoval : Faults String :=
  ⟨false, none, fun _ => false, fun _ => none,
    fun i => if i = 0 then some "Permission denied (os error 13)" else none, fun _ => none⟩

/-- The file could not be unlinked, its row says that there is no audio, and the next sweep
    plans nothing. -/
theorem refused_file_marked_deleted :
    let after := (sweep sampleHost refusedRemoval 1000 1000 .apply sampleStorage).2
    after.files (sampleHost.place "media/m/mic.opus") = some 3000 ∧
    after.db.recordings.map Recording.state = [.deleted] ∧
    (planOf sampleHost refusedRemoval 2000 after).evictions = [] ∧
    ¬ Kept sampleHost sampleStorage after := by
  intro after
  have hfile : after.files (sampleHost.place "media/m/mic.opus") = some 3000 := by decide
  have hstate : after.db.recordings.map Recording.state = [.deleted] := by decide
  refine ⟨hfile, hstate, by decide, fun hkept => ?_⟩
  have hmark : ∃ r', after.db.recordings[0]? = some r' ∧ r'.state ≠ .complete := by
    decide
  obtain ⟨r', hr', hne⟩ := hmark
  have hgone := hkept.marked 0 _ r' rfl hr' rfl hne
  exact absurd hgone nofun

end FlyOnTheWall.Sweep
