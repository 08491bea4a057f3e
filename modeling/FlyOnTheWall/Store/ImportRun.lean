/-
  What an import does to the rows.

  * `Grows`: what inserts do to a library, its input generations included.
  * `Placed`: where a row of the archive is after it was inserted; `insertRow_ok` for one
    row, `insertRows_ok` for any list of rows.
  * `Sound`: what SQLite keeps of a library.
  * `insertRows_again`: rows that are there are not inserted a second time.
  * `insertRows_beside`: rows of a sound library go in beside any that they are compatible with.
-/
import FlyOnTheWall.Store.Export

namespace FlyOnTheWall.Store

open Lib List

variable {jsonValid : String → Bool}

/-! ## One row -/

def Row.told (r : Row) (detail : Detail) : Conflict := ⟨r.table, r.pkDisplay, detail⟩

/-- The flags of which the module's notes speak. -/
def documentedFlags : List String := ["is_default", "is_current", "is_primary", "is_self"]

/-- Where a row of an archive is: as it was, with its flags cleared, or represented by another
    row that is kept; whatever is not as it was has been reported. -/
inductive Placed (rows : List Row) (conflicts : List Conflict) (r : Row) : Prop
  | identical (mem : r ∈ rows)
  | demoted (flags : exclusiveFlags r.table ⊆ documentedFlags) (mem : r.cleared ∈ rows)
      (told : r.told (.cleared (exclusiveFlags r.table)) ∈ conflicts)
  | represented {q : Row} (mem : q ∈ rows) (key : q.primary = r.primary) (ne : q ≠ r)
      (told : r.told .kept ∈ conflicts)

/-- The table of aliases names `meeting_id` as a flag, so that an alias of a meeting that has
    one is tried for the meeting `0`. -/
structure Misplaced (added : List Row) (r : Row) : Prop where
  table : r.table = .sessionNoteLinks
  mem : r.cleared ∈ added

variable {rows added : List Row} {r : Row}

theorem Placed.mono {rows' : List Row} {conflicts conflicts' : List Conflict}
    (h : Placed rows conflicts r) (hrows : rows ⊆ rows') (hconflicts : conflicts ⊆ conflicts') :
    Placed rows' conflicts' r := by
  cases h with
  | identical mem => exact .identical (hrows mem)
  | demoted flags mem told => exact .demoted flags (hrows mem) (hconflicts told)
  | represented mem key ne told => exact .represented (hrows mem) key ne (hconflicts told)

theorem Placed.key {conflicts : List Conflict} (h : Placed rows conflicts r) :
    ∃ q ∈ rows, q.primary = r.primary := by
  cases h with
  | identical mem => exact ⟨r, mem, rfl⟩
  | demoted _ mem => exact ⟨r.cleared, mem, r.cleared_primary⟩
  | represented mem key _ _ => exact ⟨_, mem, key⟩

theorem exclusiveFlags_documented (t : Table) :
    t = .sessionNoteLinks ∨ exclusiveFlags t ⊆ documentedFlags := by
  cases t <;> decide

/-- It is content of the meeting. -/
def Row.feeds (r : Row) (id : String) : Prop := renewsInput r.table = true ∧ r.meeting = .text id

theorem Row.feeds_of_meeting {id : String} (htable : r.table = .meetings)
    (hid : r.get "id" = .text id) : r.feeds id := by
  refine ⟨by rw [htable]; rfl, ?_⟩
  unfold Row.meeting
  rw [if_pos htable, hid]

/-- Rows are only added, and the generations that change are drawn anew: those of the meetings
    that receive content. -/
structure Grows (db : Library) (added : List Row) (db' : Library) : Prop where
  rows : db'.rows = db.rows ++ added
  random : db'.random = db.random
  drawn : db.drawn ≤ db'.drawn
  same : ∀ id, (∀ r ∈ added, ¬ r.feeds id) → db'.generations id = db.generations id
  renewed : ∀ id, (∃ r ∈ added, r.feeds id) → db'.hasMeeting (.text id) = true →
    ∃ k, db.drawn ≤ k ∧ k < db'.drawn ∧ db'.generations id = some (db.random k)

theorem Grows.refl (db : Library) : Grows db [] db :=
  ⟨(append_nil _).symm, rfl, le_rfl, fun _ _ => rfl, nofun⟩

variable {db db' db'' : Library}

theorem Grows.subset (h : Grows db added db') : db.rows ⊆ db'.rows := by
  rw [h.rows]
  exact subset_append_left _ _

theorem Library.hasMeeting_eq_true {v : Value} :
    db.hasMeeting v = true ↔ ∃ q ∈ db.rows, q.table = .meetings ∧ q.get "id" = v := by
  simp [hasMeeting]

theorem Grows.trans {more : List Row} (h : Grows db added db') (h' : Grows db' more db'') :
    Grows db (added ++ more) db'' where
  rows := by rw [h'.rows, h.rows, append_assoc]
  random := h'.random.trans h.random
  drawn := h.drawn.trans h'.drawn
  same id hnone := by
    obtain ⟨hadded, hmore⟩ := forall_mem_append.mp hnone
    exact (h'.same id hmore).trans (h.same id hadded)
  renewed id hsome hmeeting := by
    by_cases hmore : ∃ r ∈ more, r.feeds id
    · obtain ⟨k, hk, hlt, hgeneration⟩ := h'.renewed id hmore hmeeting
      exact ⟨k, h.drawn.trans hk, hlt, by rw [hgeneration, h.random]⟩
    · have hadded : ∃ r ∈ added, r.feeds id := by
        obtain ⟨r, hr, hfeeds⟩ := hsome
        rcases mem_append.mp hr with hr | hr
        · exact ⟨r, hr, hfeeds⟩
        · exact absurd ⟨r, hr, hfeeds⟩ hmore
      have hthere : db'.hasMeeting (.text id) = true := by
        -- the row of a meeting is content of it, so it is not among the later ones
        obtain ⟨q, hq, htable, hid⟩ := Library.hasMeeting_eq_true.mp hmeeting
        rw [h'.rows] at hq
        rcases mem_append.mp hq with hq | hq
        · exact Library.hasMeeting_eq_true.mpr ⟨q, hq, htable, hid⟩
        · exact absurd ⟨q, hq, Row.feeds_of_meeting htable hid⟩ hmore
      obtain ⟨k, hk, hlt, hgeneration⟩ := h.renewed id hadded hthere
      refine ⟨k, hk, hlt.trans_le h'.drawn, ?_⟩
      rw [h'.same id fun r hr hfeeds => hmore ⟨r, hr, hfeeds⟩, hgeneration]

theorem Library.renew_cases (db : Library) (r : Row) :
    (∃ id, r.feeds id ∧ db.hasMeeting (.text id) = true ∧ db.renew r = { db with
      generations := Function.update db.generations id (some (db.random db.drawn))
      drawn := db.drawn + 1 }) ∨
    (∀ id, r.feeds id → db.hasMeeting (.text id) = false) ∧ db.renew r = db := by
  unfold Row.feeds Library.renew
  cases hmeeting : r.meeting with
  | text id =>
    dsimp only
    split
    · next hrenews =>
      obtain ⟨htable, hthere⟩ := Bool.and_eq_true_iff.mp hrenews
      exact .inl ⟨id, ⟨htable, rfl⟩, hthere, rfl⟩
    · next hrenews =>
      refine .inr ⟨?_, rfl⟩
      rintro id' ⟨htable, hid⟩
      cases hid
      simpa [htable] using hrenews
  | null | int | real | blob => exact .inr ⟨fun id h => (nomatch h.2), rfl⟩

theorem Grows.insert (h : db.insert jsonValid r = some db') : Grows db [r] db' := by
  unfold Library.insert at h
  split at h
  · obtain rfl := Option.some.inj h
    rcases Library.renew_cases { db with rows := db.rows ++ [r] } r with
      ⟨id, hfeeds, -, heq⟩ | ⟨hnone, heq⟩
    · rw [heq]
      refine ⟨rfl, rfl, Nat.le_succ _, fun id' hother => ?_, ?_⟩
      · refine Function.update_of_ne ?_ _ _
        rintro rfl
        exact hother r mem_cons_self hfeeds
      · rintro id' ⟨q, hq, hfeeds'⟩ -
        obtain rfl := mem_singleton.mp hq
        obtain rfl : id = id' := Value.text.inj (hfeeds.2.symm.trans hfeeds'.2)
        exact ⟨db.drawn, le_rfl, Nat.lt_succ_self _, Function.update_self _ _ _⟩
    · rw [heq]
      refine ⟨rfl, rfl, le_rfl, fun _ _ => rfl, ?_⟩
      rintro id ⟨q, hq, hfeeds⟩ hmeeting
      obtain rfl := mem_singleton.mp hq
      rw [hnone id hfeeds] at hmeeting
      cases hmeeting
  · cases h

variable {t s : Library × ImportReport}

/-- How an insert ends: the row itself or its cleared form was inserted, or a row with its key
    was there. -/
inductive Inserted (jsonValid : String → Bool) (s t : Library × ImportReport) (r : Row) : Prop
  | whole (insert : s.1.insert jsonValid r = some t.1) (told : t.2.conflicts = s.2.conflicts)
      (count : t.2.rowsInserted = s.2.rowsInserted + 1)
  | cleared (insert : s.1.insert jsonValid r.cleared = some t.1)
      (told : t.2.conflicts = s.2.conflicts ++ [r.told (.cleared (exclusiveFlags r.table))])
      (flags : exclusiveFlags r.table ≠ [])
  | present (same : t.1 = s.1) (mem : r ∈ s.1.rows) (told : t.2.conflicts = s.2.conflicts)
      (count : t.2.rowsInserted = s.2.rowsInserted)
  | kept {q : Row} (same : t.1 = s.1) (mem : q ∈ s.1.rows) (key : q.primary = r.primary)
      (ne : q ≠ r) (told : t.2.conflicts = s.2.conflicts ++ [r.told .kept])
      (count : t.2.rowsInserted = s.2.rowsInserted)

theorem insertRow_inserted (h : insertRow jsonValid s r = .ok t) : Inserted jsonValid s t r := by
  unfold insertRow at h
  split at h
  · next db hinsert =>
    cases h
    exact .whole hinsert rfl rfl
  · unfold classify at h
    split at h
    · next existing hread =>
      obtain ⟨hmem, hkey⟩ := Library.readByPk_eq_some hread
      split at h
      · next hsame =>
        cases h
        exact .present rfl (hsame ▸ hmem) rfl rfl
      · next hne =>
        cases h
        exact .kept rfl hmem hkey hne rfl rfl
    · split at h
      · cases h
      · next hflags =>
        split at h
        · next db hinsert =>
          cases h
          exact .cleared hinsert rfl hflags
        · cases h

/-- A row goes in as it is, or with its flags cleared. -/
inductive Taken (rows : List Row) : Row → Prop
  | whole {r : Row} (mem : r ∈ rows) : Taken rows r
  | cleared {r : Row} (mem : r ∈ rows) (flags : exclusiveFlags r.table ≠ []) : Taken rows r.cleared

/-- What inserts do that succeed. -/
structure Enters (s : Library × ImportReport) (rows added : List Row) (t : Library × ImportReport) :
    Prop where
  grows : Grows s.1 added t.1
  told : s.2.conflicts <+: t.2.conflicts
  taken : ∀ q ∈ added, Taken rows q
  placed : ∀ r ∈ rows, Placed t.1.rows t.2.conflicts r ∨ Misplaced added r

theorem insertRow_ok (h : insertRow jsonValid s r = .ok t) : ∃ added, Enters s [r] added t := by
  cases insertRow_inserted h with
  | whole insert told _ =>
    have hgrows := Grows.insert insert
    refine ⟨[r], hgrows, told ▸ prefix_refl _, fun q hq => .whole hq, ?_⟩
    exact forall_mem_singleton.mpr (.inl (.identical (by simp [hgrows.rows])))
  | cleared insert told flags =>
    have hgrows := Grows.insert insert
    refine ⟨[r.cleared], hgrows, ⟨_, told.symm⟩, ?_, forall_mem_singleton.mpr ?_⟩
    · exact forall_mem_singleton.mpr (.cleared mem_cons_self flags)
    · rcases exclusiveFlags_documented r.table with htable | hflags
      · exact .inr ⟨htable, mem_cons_self⟩
      · exact .inl (.demoted hflags (by simp [hgrows.rows]) (by simp [told]))
  | present same mem told _ =>
    refine ⟨[], same ▸ .refl _, told ▸ prefix_refl _, nofun, ?_⟩
    exact forall_mem_singleton.mpr (.inl (.identical (same ▸ mem)))
  | kept same mem key ne told _ =>
    refine ⟨[], same ▸ .refl _, ⟨_, told.symm⟩, nofun, forall_mem_singleton.mpr (.inl ?_)⟩
    exact .represented (same ▸ mem) key ne (by simp [told])

/-! ## Any rows -/

theorem insertRows_cons : insertRows jsonValid s (r :: rows) = .ok t ↔
      ∃ u, insertRow jsonValid s r = .ok u ∧ insertRows jsonValid u rows = .ok t := by
  exact bind_eq_ok

theorem Taken.mono {rows' : List Row} (h : Taken rows r) (hrows : rows ⊆ rows') :
    Taken rows' r := by
  cases h with
  | whole mem => exact .whole (hrows mem)
  | cleared mem flags => exact .cleared (hrows mem) flags

theorem insertRows_ok (h : insertRows jsonValid s rows = .ok t) :
    ∃ added, Enters s rows added t := by
  induction rows generalizing s with
  | nil =>
    cases h
    exact ⟨[], .refl _, prefix_refl _, nofun, nofun⟩
  | cons r rows ih =>
    obtain ⟨u, hrow, hrest⟩ := insertRows_cons.mp h
    obtain ⟨first, hfirst⟩ := insertRow_ok hrow
    obtain ⟨more, hmore⟩ := ih hrest
    refine ⟨first ++ more, hfirst.grows.trans hmore.grows, hfirst.told.trans hmore.told,
      forall_mem_append.mpr ⟨?_, ?_⟩, forall_mem_cons.mpr ⟨?_, ?_⟩⟩
    · exact fun q hq => (hfirst.taken q hq).mono (by simp)
    · exact fun q hq => (hmore.taken q hq).mono (subset_cons_self _ _)
    · rcases hfirst.placed r mem_cons_self with hplaced | hmis
      · exact .inl (hplaced.mono hmore.grows.subset hmore.told.subset)
      · exact .inr ⟨hmis.table, mem_append_left _ hmis.mem⟩
    · intro q hq
      exact (hmore.placed q hq).imp_right fun hmis => ⟨hmis.table, mem_append_right _ hmis.mem⟩

theorem Enters.key (h : Enters s rows added t) (hr : r ∈ rows) :
    ∃ q ∈ t.1.rows, q.primary = r.primary := by
  rcases h.placed r hr with hplaced | hmis
  · exact hplaced.key
  · exact ⟨r.cleared, by rw [h.grows.rows]; exact mem_append_right _ hmis.mem, r.cleared_primary⟩

variable {report : ImportReport} {source : Library} {after : Files}

/-- A row with the key is there: the row is counted or reported, and nothing changes. -/
theorem insertRow_found {found : Row} (h : db.readByPk r = some found) :
    insertRow jsonValid (db, report) r = .ok (db, if found = r then
      { report with rowsAlreadyPresent := report.rowsAlreadyPresent + 1 }
      else report.add r .kept) := by
  obtain ⟨hmem, hkey⟩ := Library.readByPk_eq_some h
  unfold insertRow
  rw [Library.insert_eq_none hmem hkey]
  unfold classify
  rw [h]
  dsimp only
  split <;> rfl

/-- Rows whose keys are all there: nothing is inserted and nothing changes. -/
theorem insertRows_again (report : ImportReport)
    (hall : ∀ r ∈ rows, ∃ q ∈ db.rows, q.primary = r.primary) :
    ∃ report', insertRows jsonValid (db, report) rows = .ok (db, report') ∧
      report'.rowsInserted = report.rowsInserted := by
  induction rows generalizing report with
  | nil => exact ⟨report, rfl, rfl⟩
  | cons r rows ih =>
    obtain ⟨⟨q, hq, hkey⟩, hrest⟩ := forall_mem_cons.mp hall
    obtain ⟨found, hfound⟩ := Library.readByPk_isSome hq hkey
    obtain ⟨report1, hrow, hcount⟩ : ∃ report1,
        insertRow jsonValid (db, report) r = .ok (db, report1) ∧
          report1.rowsInserted = report.rowsInserted := by
      refine ⟨_, insertRow_found hfound, ?_⟩
      split <;> rfl
    obtain ⟨report', hrows, hcount'⟩ := ih report1 hrest
    exact ⟨report', insertRows_cons.mpr ⟨_, hrow, hrows⟩, hcount'.trans hcount⟩

/-! ## What SQLite keeps -/

/-- What holds of the rows while they are inserted. -/
structure Tabular (jsonValid : String → Bool) (rows : List Row) : Prop where
  keys : Consistent indexes rows
  checked : ∀ r ∈ rows, checks jsonValid r = true
  apart : ∀ r ∈ rows, r.reserved = false

structure Sound (jsonValid : String → Bool) (db : Library) : Prop
    extends Tabular jsonValid db.rows where
  references : ∀ r ∈ db.rows, resolved references db.rows r = true

theorem importRows_ok (h : importRows jsonValid db report rows = .ok t) :
    insertRows jsonValid (db, report) rows = .ok t ∧
      ∀ r ∈ t.1.rows.drop db.rows.length, resolved references t.1.rows r = true := by
  obtain ⟨u, hrows, h⟩ := bind_eq_ok.mp h
  obtain ⟨⟨⟩, hrefuse, h⟩ := bind_eq_ok.mp h
  obtain rfl := Except.ok.inj h
  refine ⟨hrows, all_eq_true.mp ?_⟩
  simpa using refuseIf_eq_ok.mp hrefuse

/-- A reference with nothing missing names a row. -/
theorem target_of_resolved (h : resolved references rows r = true) {fk : ForeignKey}
    (hfk : fk ∈ foreignKeys r.table) (hnull : Value.null ∉ fk.columns.map r.get) :
    ∃ q ∈ rows, q.table = fk.target ∧ fk.targetColumns.map q.get = fk.columns.map r.get := by
  have hmem : fk.meets r ∈ references r := by
    refine mem_map.mpr ⟨fk, mem_filter.mpr ⟨hfk, ?_⟩, rfl⟩
    simpa using hnull
  obtain ⟨q, hq, hmeets⟩ := any_eq_true.mp (all_eq_true.mp h _ hmem)
  obtain ⟨htable, hcolumns⟩ := Bool.and_eq_true_iff.mp hmeets
  exact ⟨q, hq, beq_iff_eq.mp htable, beq_iff_eq.mp hcolumns⟩

theorem cleared_link (h : r.table = .sessionNoteLinks) :
    r.cleared.get "meeting_id" = .text "0" := by
  obtain ⟨table, values, typed⟩ := r
  obtain rfl : table = .sessionNoteLinks := h
  -- the meeting is in the second column
  rcases values with _ | ⟨session, _ | ⟨meeting, rest⟩⟩
  · cases typed
  · cases typed with
    | cons _ htail => cases htail
  · rfl

/-- No meeting has the id `0`: an alias that is tried for it has no meeting to refer to. -/
theorem Enters.all_placed (h : Enters s rows added t)
    (hresolved : ∀ r ∈ added, resolved references t.1.rows r = true)
    (hzero : ∀ q ∈ s.1.rows ++ rows, q.table = .meetings → q.get "id" ≠ .text "0") :
    ∀ r ∈ rows, Placed t.1.rows t.2.conflicts r := by
  intro r hr
  rcases h.placed r hr with hplaced | hmis
  · exact hplaced
  · have hfk : toMeeting ∈ foreignKeys r.cleared.table := by
      rw [show r.cleared.table = r.table from rfl, hmis.table]
      exact mem_cons_self
    have hlink : toMeeting.columns.map r.cleared.get = [.text "0"] := by
      rw [show toMeeting.columns = ["meeting_id"] from rfl, map_singleton,
        cleared_link hmis.table]
    obtain ⟨q, hq, htable, hid⟩ := target_of_resolved (hresolved _ hmis.mem) hfk
      (by rw [hlink]; decide)
    have hzeroId : q.get "id" = .text "0" := (cons.inj (hid.trans hlink)).1
    rw [h.grows.rows] at hq
    rcases mem_append.mp hq with hlocal | hadded
    · exact absurd hzeroId (hzero q (mem_append_left _ hlocal) htable)
    · cases h.taken q hadded with
      | whole mem => exact absurd hzeroId (hzero q (mem_append_right _ mem) htable)
      | cleared _ flags =>
        exact absurd (congrArg exclusiveFlags htable) flags

/-- Apart from settings and marks, which nothing refers to, no row has a key of another one. -/
def Compatible (start source : List Row) : Prop :=
  ∀ q ∈ start, ∀ r ∈ source, q ≠ r → clash indexes q r = true →
    q.table = .settings ∨ q.table = .appMeta

/-- Whether another row has the key of the row. -/
def supplanted (start : List Row) (r : Row) : Bool :=
  start.any fun q => q.primary == r.primary && q != r

theorem supplanted_eq_true {start : List Row} :
    supplanted start r = true ↔ ∃ q ∈ start, q.primary = r.primary ∧ q ≠ r := by
  simp [supplanted]

theorem primary_of_clash {q : Row} (hclash : clash indexes q r = true)
    (htable : q.table = .settings ∨ q.table = .appMeta) : q.primary = r.primary := by
  obtain ⟨key, hkey, heq⟩ := any_eq_true.mp hclash
  obtain ⟨hsome, hsame⟩ := Bool.and_eq_true_iff.mp heq
  rcases mem_cons.mp hkey with rfl | hkey
  · exact Option.some.inj (eq_of_beq hsame)
  · -- no other index covers the two tables
    obtain ⟨i, hi, rfl⟩ := mem_map.mp hkey
    have hother : ∀ i ∈ uniqueIndexes, i.table ≠ .settings ∧ i.table ≠ .appMeta := by decide
    unfold UniqueIndex.key at hsome
    split at hsome
    · next hcovers =>
      rw [hcovers.1] at htable
      exact absurd htable (not_or.mpr (hother i hi))
    · cases hsome

section Beside
variable {start : List Row}

/-- The rows are those of the start, and those of the source whose keys are not among them. -/
structure Beside (start : List Row) (source db : Library) : Prop where
  kept : start ⊆ db.rows
  others : ∀ r ∈ db.rows, r ∈ start ∨ r ∈ source.rows ∧ ∀ q ∈ start, q.primary ≠ r.primary

variable (hsource : Sound jsonValid source) (hstart : Consistent indexes start)
  (hcompatible : Compatible start source.rows)
include hsource hstart hcompatible

theorem insertRow_beside (hdb : Beside start source db) (report : ImportReport)
    (hr : r ∈ source.rows) :
    ∃ db' report', insertRow jsonValid (db, report) r = .ok (db', report') ∧
      Beside start source db' ∧ (∃ added ⊆ source.rows, db'.rows = db.rows ++ added) ∧
      ((∀ q ∈ start, q.primary ≠ r.primary) → r ∈ db'.rows) ∧
      report'.conflicts = report.conflicts ++
        if supplanted start r then [r.told .kept] else [] := by
  by_cases hlocal : ∃ q ∈ start, q.primary = r.primary
  · obtain ⟨q, hq, hkey⟩ := hlocal
    obtain ⟨found, hfound⟩ := Library.readByPk_isSome (hdb.kept hq) hkey
    obtain ⟨hin, hfoundKey⟩ := Library.readByPk_eq_some hfound
    obtain rfl : found = q := by
      rcases hdb.others found hin with hmem | ⟨-, hnone⟩
      · exact eq_of_primary hstart hmem hq (hfoundKey.trans hkey.symm)
      · exact absurd (hkey.trans hfoundKey.symm) (hnone q hq)
    refine ⟨db, _, insertRow_found hfound, hdb, ⟨[], nil_subset _, (append_nil _).symm⟩,
      fun hnone => absurd hkey (hnone found hq), ?_⟩
    by_cases hsame : found = r
    · have hnot : supplanted start r = false := by
        rw [Bool.eq_false_iff]
        intro hother
        obtain ⟨p, hp, hpkey, hne⟩ := supplanted_eq_true.mp hother
        exact hne ((eq_of_primary hstart hp hq (hpkey.trans hkey.symm)).trans hsame)
      rw [hnot, if_pos hsame]
      exact (append_nil _).symm
    · rw [supplanted_eq_true.mpr ⟨found, hq, hkey, hsame⟩, if_neg hsame]
      rfl
  · have hnone : ∀ q ∈ start, q.primary ≠ r.primary := fun q hq hkey => hlocal ⟨q, hq, hkey⟩
    have hnot : supplanted start r = false := by
      rw [Bool.eq_false_iff]
      intro hother
      obtain ⟨q, hq, hkey, -⟩ := supplanted_eq_true.mp hother
      exact hnone q hq hkey
    rw [hnot]
    by_cases hmem : r ∈ db.rows
    · obtain ⟨found, hfound⟩ := Library.readByPk_isSome hmem rfl
      obtain ⟨hin, hkey⟩ := Library.readByPk_eq_some hfound
      have hsame : found = r := by
        rcases hdb.others found hin with hlocal | ⟨hfrom, -⟩
        · exact absurd hkey (hnone found hlocal)
        · exact eq_of_primary hsource.keys hfrom hr hkey
      refine ⟨db, _, insertRow_found hfound, hdb, ⟨[], nil_subset _, (append_nil _).symm⟩,
        fun _ => hmem, ?_⟩
      rw [if_pos hsame]
      exact (append_nil _).symm
    · have hadmits : admits indexes db.rows r = true := by
        refine admits_eq_true.mpr fun q hq => ?_
        have hne : q ≠ r := by
          rintro rfl
          exact hmem hq
        rcases hdb.others q hq with hlocal | ⟨hfrom, -⟩
        · rw [Bool.eq_false_iff]
          intro hclash
          exact hnone q hlocal (primary_of_clash hclash (hcompatible q hlocal r hr hne hclash))
        · exact hsource.keys.apart hfrom hr hne
      obtain ⟨db', hinsert⟩ : ∃ db', db.insert jsonValid r = some db' := by
        unfold Library.insert
        rw [hadmits, hsource.checked r hr]
        exact ⟨_, rfl⟩
      have hrows := Library.insert_rows hinsert
      refine ⟨db', { report with rowsInserted := report.rowsInserted + 1 }, ?_, ⟨?_, ?_⟩,
        ⟨[r], ?_, hrows⟩, fun _ => ?_, (append_nil _).symm⟩
      · unfold insertRow
        rw [hinsert]
      · rw [hrows]
        exact fun q hq => mem_append_left _ (hdb.kept hq)
      · rw [hrows]
        exact forall_mem_append.mpr ⟨hdb.others, forall_mem_singleton.mpr (.inr ⟨hr, hnone⟩)⟩
      · exact cons_subset.mpr ⟨hr, nil_subset _⟩
      · rw [hrows]
        exact mem_append_right _ mem_cons_self

theorem insertRows_beside (hrows : ∀ r ∈ rows, r ∈ source.rows) (hdb : Beside start source db)
    (report : ImportReport) :
    ∃ db' report', insertRows jsonValid (db, report) rows = .ok (db', report') ∧
      Beside start source db' ∧ (∃ added ⊆ source.rows, db'.rows = db.rows ++ added) ∧
      (∀ r ∈ rows, (∀ q ∈ start, q.primary ≠ r.primary) → r ∈ db'.rows) ∧
      report'.conflicts = report.conflicts ++
        (rows.filter (supplanted start)).map (Row.told · .kept) := by
  induction rows generalizing db report with
  | nil =>
    exact ⟨db, report, rfl, hdb, ⟨[], nil_subset _, (append_nil _).symm⟩, nofun,
      (append_nil _).symm⟩
  | cons r rows ih =>
    obtain ⟨hr, hrest⟩ := forall_mem_cons.mp hrows
    obtain ⟨db1, report1, hrow, hdb1, ⟨first, hfirst, hrows1⟩, hthere, htold⟩ :=
      insertRow_beside hsource hstart hcompatible hdb report hr
    obtain ⟨db', report', hrun, hdb', ⟨more, hmore, hrows'⟩, hall, htold'⟩ := ih hrest hdb1 report1
    refine ⟨db', report', insertRows_cons.mpr ⟨_, hrow, hrun⟩, hdb',
      ⟨first ++ more, append_subset.mpr ⟨hfirst, hmore⟩, by rw [hrows', hrows1, append_assoc]⟩,
      forall_mem_cons.mpr ⟨fun hnone => ?_, hall⟩, ?_⟩
    · rw [hrows']
      exact mem_append_left _ (hthere hnone)
    · rw [htold', htold, append_assoc, filter_cons]
      cases supplanted start r <;> rfl

end Beside

/-! ## Whole imports -/

section Whole
variable {json : Json} {options : ImportOptions} {archive : Archive} {s : Local} {files : Files}
  {error : ImportError}

theorem runOps_error {ops : List FileOp} {io : List String → FileIo}
    (h : (runOps io ops files).1 = .error error) : error = .files := by
  induction ops generalizing files with
  | nil => cases h
  | cons op ops ih =>
    unfold runOps at h
    split at h
    · cases h
      rfl
    · next files' _ =>
      dsimp only at h
      cases hrest : (runOps io ops files').1 with
      | error e =>
        rw [hrest] at h
        cases h
        exact ih hrest
      | ok n =>
        rw [hrest] at h
        cases h

theorem restoreTemplates_error
    (h : restoreTemplates options archive files = (.error error, after)) : error = .files := by
  unfold restoreTemplates at h
  split at h
  · exact runOps_error (congrArg Prod.fst h)
  · cases h

theorem restoreMedia_error
    (h : restoreMedia options archive files = (.error error, after)) : error = .files := by
  unfold restoreMedia at h
  split at h
  · exact runOps_error (congrArg Prod.fst h)
  · cases h

/-- An import whose rows are refused changes nothing. -/
theorem importLibraryWith_refused
    (h : importArchiveRows json jsonValid archive s.library = .error error) :
    importLibraryWith json jsonValid options archive s = (.error error, s) := by
  unfold importLibraryWith
  rw [h]

/-- After the rows only the files can fail, and they have no part in the library. -/
theorem importLibraryWith_committed (options : ImportOptions)
    (h : importArchiveRows json jsonValid archive s.library = .ok (db, report)) :
    (importLibraryWith json jsonValid options archive s).2.library = db ∧
      match (importLibraryWith json jsonValid options archive s).1 with
      | .error error => error = .files
      | .ok told => told.conflicts = report.conflicts ∧
          told.rowsInserted = report.rowsInserted := by
  unfold importLibraryWith
  rw [h]
  cases htemplates : restoreTemplates options archive s.templates with
  | mk result templates =>
    cases result with
    | error error => exact ⟨rfl, restoreTemplates_error htemplates⟩
    | ok restored =>
      cases hmedia : restoreMedia options archive s.media with
      | mk result media =>
        cases result with
        | error error => exact ⟨rfl, restoreMedia_error hmedia⟩
        | ok count => exact ⟨rfl, rfl, rfl⟩

theorem importArchiveRows_ok
    (h : importArchiveRows json jsonValid archive db = .ok t) :
    ∃ manifest docs, readArchive json archive = .ok (manifest, docs) ∧
      importRows jsonValid db (.start docs.length) (archiveRows manifest docs) = .ok t := by
  obtain ⟨⟨manifest, docs⟩, hread, hrows⟩ := bind_eq_ok.mp h
  exact ⟨manifest, docs, hread, hrows⟩

theorem importArchiveRows_again
    (h : importArchiveRows json jsonValid archive db = .ok t) :
    ∃ report, importArchiveRows json jsonValid archive t.1 = .ok (t.1, report) ∧
      report.rowsInserted = 0 := by
  obtain ⟨manifest, docs, hread, hrows⟩ := importArchiveRows_ok h
  obtain ⟨added, henters⟩ := insertRows_ok (importRows_ok hrows).1
  obtain ⟨report, hagain, hcount⟩ : ∃ report,
      insertRows jsonValid (t.1, .start docs.length) (archiveRows manifest docs) =
        .ok (t.1, report) ∧ report.rowsInserted = 0 :=
    insertRows_again (.start docs.length) fun r hr => henters.key hr
  refine ⟨report, ?_, hcount⟩
  unfold importArchiveRows importRows
  rw [hread, ok_bind]
  dsimp only
  rw [hagain, ok_bind, drop_length]
  rfl

end Whole

end FlyOnTheWall.Store
