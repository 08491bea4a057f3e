/-
  An export that was cut, and the export that is made again.

  `export_again_iff`: the second export ends where an uninterrupted one would have ended
  exactly if the destination it finds is accepted, and each meeting that only one of the two
  would skip has its files already.
-/
import FlyOnTheWall.Store.Confined

namespace FlyOnTheWall.Store

open Lib Prog List

section Again
variable {render : Render} {options : ArchiveOptions} {now : ℤ} {db : Library} {resume : Bool}
  {name : String} {files : String → Option Content} {ids : List String} {id : String}
  {content : Option Content}

/-- A file of a meeting that the cut export would not have written again is as it was. -/
theorem Reached.skipped {now : Option Content} (h : Reached render db resume files ids name now)
    (howns : Owns render db id name content) (hskips : skips render resume files id = true) :
    now = files name := by
  rcases h with h | ⟨id', -, hskips', howns'⟩
  · exact h
  · rw [(howns'.unique howns).1, hskips] at hskips'
    cases hskips'

/-- A file of no meeting is as it was. -/
theorem Reached.other {now : Option Content} (h : Reached render db resume files ids name now)
    (hname : ∀ id ∈ ids, ∀ content, ¬Owns render db id name content) : now = files name := by
  rcases h with h | ⟨id, hid, -, howns⟩
  · exact h
  · exact absurd howns (hname id hid _)

/-- The meetings that only one of two exports skips have their files at the second one. -/
def Settled (render : Render) (options : ArchiveOptions) (resume : Bool) (db : Library)
    (start cut : Dest) : Prop :=
  ∀ id ∈ db.meetingIds,
    skips render options.resume start.settled id ≠ skips render resume cut.settled id →
    ∀ name content, Owns render db id name content → name ∉ sharedNames options db →
      cut.settled name = content

variable {cut start : Dest}

/-- The files of one meeting after the two exports. -/
theorem afterMeetings_agree (hnodup : db.meetingIds.Nodup) (hid : id ∈ db.meetingIds)
    (howns : Owns render db id name content)
    (hreached : Reached render db options.resume start.settled db.meetingIds name
      (cut.settled name)) :
    (afterMeetings render db resume cut.settled db.meetingIds name =
        afterMeetings render db options.resume start.settled db.meetingIds name) ↔
      (skips render options.resume start.settled id ≠ skips render resume cut.settled id →
        cut.settled name = content) := by
  rw [afterMeetings_owned hnodup hid howns, afterMeetings_owned hnodup hid howns]
  cases hfirst : skips render options.resume start.settled id with
  | true =>
    have hsame := hreached.skipped howns hfirst
    cases hsecond : skips render resume cut.settled id with
    | true => simp [hsame]
    | false => simp [hsame, eq_comm]
  | false =>
    cases hsecond : skips render resume cut.settled id with
    | true => simp
    | false => simp

theorem settled_agree_iff (hnodup : db.meetingIds.Nodup)
    (hreached : ∀ name ∉ sharedNames options db, Reached render db options.resume start.settled
      db.meetingIds name (cut.settled name)) :
    putAll (afterMeetings render db resume cut.settled db.meetingIds)
        (sharedPuts render options now db) =
      putAll (afterMeetings render db options.resume start.settled db.meetingIds)
        (sharedPuts render options now db) ↔
      Settled render options resume db start cut := by
  constructor
  · intro hsame id hid hdiffer name content howns hname
    have hat := congrFun hsame name
    have hnot : name ∉ (sharedPuts render options now db).map Prod.fst := sharedPuts_names ▸ hname
    rw [putAll_other hnot, putAll_other hnot] at hat
    exact (afterMeetings_agree hnodup hid howns (hreached name hname)).mp hat hdiffer
  · intro hsettled
    funext name
    by_cases howned : ∃ id ∈ db.meetingIds, ∃ content, Owns render db id name content
    · obtain ⟨id, hid, content, howns⟩ := howned
      by_cases hname : name ∈ sharedNames options db
      · exact putAll_named howns.settled (sharedPuts_names ▸ hname)
      · have hnot : name ∉ (sharedPuts render options now db).map Prod.fst :=
          sharedPuts_names ▸ hname
        rw [putAll_other hnot, putAll_other hnot]
        exact (afterMeetings_agree hnodup hid howns (hreached name hname)).mpr fun hdiffer =>
          hsettled id hid hdiffer name content howns hname
    · have hnone : ∀ id ∈ db.meetingIds, ∀ content, ¬Owns render db id name content :=
        fun id hid content howns => howned ⟨id, hid, content, howns⟩
      cases hkind : isTemporary name with
      | true =>
        rw [putAll_temporary hkind, putAll_temporary hkind, afterMeetings_other hnone,
          afterMeetings_other hnone]
        unfold Dest.settled
        rw [hkind]
        rfl
      | false =>
        by_cases hname : name ∈ sharedNames options db
        · exact putAll_named hkind (sharedPuts_names ▸ hname)
        · have hnot : name ∉ (sharedPuts render options now db).map Prod.fst :=
            sharedPuts_names ▸ hname
          rw [putAll_other hnot, putAll_other hnot, afterMeetings_other hnone,
            afterMeetings_other hnone]
          exact (hreached name hname).other hnone

end Again

/-- An export is cut, and made again with the same library and destination, resuming or not.
    It ends well and leaves the files an uninterrupted export of that time leaves, the
    temporary ones aside, if and only if the destination is accepted as it was left and every
    meeting that only one of the two exports skips has its document and its Markdown. -/
theorem export_again_iff (render : Render) (options : ArchiveOptions) (now now' : ℤ)
    (resume : Bool) (db : Library) (hdb : Consistent indexes db.rows) {start e : Dest}
    {report : ArchiveReport}
    (hwhole : (exportLibrary render options now' db).Returns start report e)
    {cut : Dest} (hcut : cut ∈ start :: (exportLibrary render options now db start).trace) :
    (∃ report' e', (exportLibrary render { options with resume := resume } now' db).Returns cut
        report' e' ∧ e'.settled = e.settled) ↔
      Accepted cut ∧ Settled render options resume db start cut := by
  obtain ⟨haccepted, htemplates⟩ := exportLibrary_ok hwhole
  have hnodup := Library.meetingIds_nodup hdb
  have hreached : ∀ name ∉ sharedNames options db, Reached render db options.resume start.settled
      db.meetingIds name (cut.settled name) := by
    rcases mem_cons.mp hcut with rfl | hcut
    · exact fun _ _ => .inl rfl
    · exact exportLibrary_cut hnodup htemplates haccepted hcut
  obtain ⟨-, e1, ⟨-, hstate1⟩, hsettled1, -⟩ :=
    exportLibrary_returns render options now' db htemplates haccepted
  obtain rfl := hwhole.2.symm.trans hstate1
  constructor
  · rintro ⟨report', e', hagain, hsame⟩
    obtain ⟨hcutAccepted, -⟩ := exportLibrary_ok hagain
    obtain ⟨-, e2, ⟨-, hstate2⟩, hsettled2, -⟩ := exportLibrary_returns render
      { options with resume := resume } now' db htemplates hcutAccepted
    obtain rfl := hagain.2.symm.trans hstate2
    rw [hsettled1, hsettled2] at hsame
    exact ⟨hcutAccepted, (settled_agree_iff hnodup hreached).mp hsame⟩
  · rintro ⟨hcutAccepted, hcutSettled⟩
    obtain ⟨report', e2, hagain, hsettled2, -⟩ := exportLibrary_returns render
      { options with resume := resume } now' db htemplates hcutAccepted
    refine ⟨report', e2, hagain, ?_⟩
    rw [hsettled1, hsettled2]
    exact (settled_agree_iff hnodup hreached).mpr hcutSettled

def oneMeeting : Library := ⟨[strayMeeting.val], fun _ => none, fun _ => "", 0⟩

theorem oneMeeting_ids : oneMeeting.meetingIds = ["mtg-1"] := by decide +kernel

def plainRender : Render where
  json := ⟨⟨fun _ => [1], fun _ => none⟩,
    ⟨fun _ => [2], fun _ => some ⟨meetingSchema, strayMeeting, fun _ => []⟩⟩⟩
  markdown _ := []

/-- The directory that was just created, with one directory in it. -/
def begun : Dest := ⟨.directory true, fun _ => none, []⟩

theorem prepareDestination_makes :
    prepareDestination.Returns noDestination () ⟨.directory false, fun _ => none, []⟩ := ⟨rfl, rfl⟩

section
variable (render : Render) (options : ArchiveOptions) (now : ℤ) (db : Library)

/-- The meetings and `library.json` are there, the README is not yet. -/
def behindManifest (ids : List String) : Dest :=
  (writeAtomic "library" ".json" (render.json.manifest.toVec (db.manifest now options.includeAudio))
    (exportMeetings render options.resume db ids begun).state).state

theorem behindManifest_mem {ids : List String} (hids : db.meetingIds = ids) :
    behindManifest render options now db ids ∈
      (exportLibrary render options now db noDestination).trace := by
  subst hids
  obtain ⟨written, d, hmeetings, -⟩ := exportMeetings_returns render options.resume
    (fun id (hid : id ∈ db.meetingIds) => Library.exportMeeting_isSome hid) begun
  have hfile := writeFile_returns (.write (temporary "library" ".json"))
    (temporary "library" ".json")
    (render.json.manifest.toVec (db.manifest now options.includeAudio)) d
  have hmanifest : (writeAtomic "library" ".json" _).Returns d () _ := hfile.bind (.step rfl)
  rw [behindManifest, hmeetings.2, hmanifest.2]
  exact prepareDestination_makes.mem_trace_after <| (createDir_returns _).mem_trace_after <|
    (createDir_returns _).mem_trace_after <| hmeetings.mem_trace_after <| mem_trace_bind <|
    mem_trace_bind <| hfile.mem_trace_after <| mem_singleton_self _

end

/-- An export that was cut behind `library.json` is made again, and skips the meeting. -/
theorem export_again_behind_manifest : ∃ report e,
    (exportLibrary plainRender plainExport 2 oneMeeting).Returns noDestination report e ∧
    ∃ report' e', (exportLibrary plainRender { plainExport with resume := true } 2
        oneMeeting).Returns (behindManifest plainRender plainExport 1 oneMeeting ["mtg-1"])
          report' e' ∧ e'.settled = e.settled := by
  obtain ⟨report, e, hwhole, -⟩ := exportLibrary_returns plainRender plainExport 2
    oneMeeting nofun (show Accepted noDestination from trivial)
  refine ⟨report, e, hwhole, (export_again_iff plainRender plainExport 1 2 true oneMeeting
    (pairwise_singleton _ _) hwhole
    (mem_cons_of_mem _ (behindManifest_mem _ _ _ _ oneMeeting_ids))).mpr ⟨?_, ?_⟩⟩
  · have hplace : (behindManifest plainRender plainExport 1 oneMeeting ["mtg-1"]).place =
        .directory true := by
      decide +kernel
    unfold Accepted
    rw [hplace]
    decide +kernel
  · rintro id hid - _ _ howns -
    obtain rfl : id = "mtg-1" := mem_singleton.mp (oneMeeting_ids ▸ hid)
    cases howns with
    | document | markdown => decide +kernel

/-- An export into a new directory is cut when it has made the directory `meetings`. Made again
    it refuses the destination: that holds something, and no `library.json`. -/
theorem export_again_refused :
    begun ∈ (exportLibrary plainRender plainExport 1 oneMeeting noDestination).trace ∧
    (exportLibrary plainRender plainExport 2 oneMeeting begun).result = .error .notAnArchive ∧
    (exportLibrary plainRender { plainExport with resume := true } 2 oneMeeting begun).result =
      .error .notAnArchive ∧
    ∃ report, (exportLibrary plainRender plainExport 2 oneMeeting noDestination).result =
      .ok report := by
  refine ⟨?_, rfl, rfl, ?_⟩
  · exact (prepareDestination_makes).mem_trace_after (mem_trace_bind (mem_singleton_self _))
  · obtain ⟨report, e, hwhole, -⟩ := exportLibrary_returns plainRender plainExport 2
      oneMeeting nofun (show Accepted noDestination from trivial)
    exact ⟨report, hwhole.1⟩

end FlyOnTheWall.Store
