/-
  What a session directory that is removed was holding.

  * `Evidence`: anything that is left of a source's canonical stream.
  * `Finished`: the stream is complete, in the library and not open anywhere.
  * `retire_evidence_iff`: the sources of a directory that is removed are finished exactly if
    no coverage journal is there without its audio.
  * `promotion_names_claim_iff`: whose promotion is returned after the session was claimed again.
-/
import FlyOnTheWall.Pipeline.PromoteRun
import FlyOnTheWall.Pipeline.ReplayRun

namespace FlyOnTheWall.Promote
open Lib Opus Wal Option

/-! ## Sources -/

/-- Replay audio, a coverage journal, a seal or a completion proof. -/
def Evidence (dir : SessionDir) (source : Replay.ReplaySource) : Prop :=
  let files := (dir.streams source).dir
  files.audio.isSome ∨ files.journal.isSome ∨ files.sealedMark.isSome ∨ files.completion.isSome

structure Finished (json : Replay.Json) (dir : SessionDir) (sessionId : String)
    (source : Replay.ReplaySource) : Prop where
  unowned : (dir.streams source).owner = none
  uncovered : dir.coverageOwned source = false
  complete : ∃ reader, Replay.openReader json (dir.streams source).dir sessionId source =
    .ok reader ∧ reader.isComplete json (dir.streams source).dir = .ok true ∧
    reader.isProjected json (dir.streams source).dir = .ok true

variable {json : Replay.Json} {dir : SessionDir} {sessionId : String} {source : Replay.ReplaySource}

theorem Finished.audio (h : Finished json dir sessionId source) :
    (dir.streams source).dir.audio.isSome = true := by
  obtain ⟨reader, hopen, -, -⟩ := h.complete
  obtain ⟨file, hfile, -⟩ := bind_eq_ok.mp hopen
  rw [okOr_eq_ok.mp hfile]
  rfl

/-- What the guard lets pass: a finished source, or one without audio and without a proof. -/
theorem sourceRetirable_iff : sourceRetirable json dir sessionId source = .ok true ↔
      Finished json dir sessionId source ∨ ((dir.streams source).dir.audio = none ∧
        (dir.streams source).dir.completion = none ∧
        (dir.streams source).dir.sealedMark = none) := by
  rw [sourceRetirable]
  cases haudio : (dir.streams source).dir.audio with
  | none =>
    constructor
    · intro h
      obtain ⟨_, hproofs, -⟩ := bind_eq_ok.mp h
      have hnone := refuseIf_eq_ok.mp hproofs
      simp only [Bool.or_eq_false_iff, isSome_eq_false_iff, isNone_iff_eq_none]
        at hnone
      exact .inr ⟨rfl, hnone⟩
    · rintro (h | ⟨-, hcompletion, hsealed⟩)
      · exact absurd h.audio (by rw [haudio]; exact nofun)
      · rw [hcompletion, hsealed]
        rfl
  | some file =>
    have hsome : (some file).isNone = false := rfl
    rw [hsome]
    constructor
    · intro h
      rw [if_neg Bool.false_ne_true] at h
      split at h
      · exact absurd h nofun
      rename_i hlocks
      simp only [Bool.or_eq_true, not_or, Bool.not_eq_true, isSome_eq_false_iff,
        isNone_iff_eq_none] at hlocks
      obtain ⟨reader, hopen, h⟩ := bind_eq_ok.mp h
      obtain ⟨complete, hcomplete, h⟩ := bind_eq_ok.mp h
      cases complete with
      | false => exact absurd h nofun
      | true => exact .inl ⟨hlocks.1, hlocks.2, reader, hopen, hcomplete, h⟩
    · rintro (h | ⟨hnone, -⟩)
      · obtain ⟨reader, hopen, hcomplete, hprojected⟩ := h.complete
        rw [h.unowned, h.uncovered, hopen, ok_bind, hcomplete, ok_bind]
        exact hprojected
      · exact absurd hnone nofun

theorem guard_sources (h : guardForRetirement json sessionId dir = .ok ())
    (source : Replay.ReplaySource) : sourceRetirable json dir sessionId source = .ok true := by
  rw [guardForRetirement] at h
  split at h
  · exact (error_ne_ok h).elim
  · exact (error_ne_ok h).elim
  · next hguard =>
    obtain ⟨system, hsystem, hmic⟩ := bind_eq_ok.mp hguard
    cases system with
    | false => cases hmic
    | true =>
      cases source with
      | system => exact hsystem
      | mic => exact hmic

/-! ## The removal -/

section
variable {σ δ : Type} {lib : Libopus σ δ}

/-- A directory that is removed passed the guard. -/
theorem guard_of_removed {s : Disk} {m : Manifest}
    (hat : At s dir m) (hremoved : (retire lib json s).state.session = none) :
    guardForRetirement json m.id dir = .ok () := by
  have hspec : Evolves lib True .any s (retire lib json s).state ∧
      AfterRetire json dir (retire lib json s).state :=
    retire_spec.post s ⟨.refl, hat.session⟩
  cases hspec.2 with
  | kept hsession => exact absurd (hremoved.symm.trans hsession) nofun
  | gone _ hm hguard =>
    obtain rfl := mem_unique hat.manifest hm
    exact hguard

variable (streams : Replay.ReplaySource → Replay.Stream)

def stampedDir : SessionDir := quietDir streams (some (recordOf quietClaim quietTracks))

/-- The silent session, published and stamped. -/
def quietPublished : Disk where
  session := some (stampedDir streams)
  retired := none
  media := ⟨fun _ => some true, fun path _ =>
    if path = components quietClaim.relDir then some (.file quietArchive) else none,
    fun _ _ => none⟩

def stampedManifest : Manifest :=
  { quietManifest with promoted := some (recordOf quietClaim quietTracks) }

theorem quietPublished_at : At (quietPublished streams) (stampedDir streams) stampedManifest :=
  ⟨rfl, rfl⟩

theorem quietPublished_whole : Whole briefOpus (quietPublished streams).media where
  track path leg node hnode := by
    have hput : (if path = components quietClaim.relDir then some (Node.file quietArchive)
      else none) = some node := hnode
    split at hput
    · exact ⟨quietArchive, (some.inj hput).symm, rfl, _, _, quiet_content leg⟩
    · exact absurd hput nofun
  dirs _ _ _ _ _ _ := rfl

theorem quietPublished_published :
    Published briefOpus (recordOf quietClaim quietTracks) stampedManifest quietTracks
      (stampedDir streams) (quietPublished streams).media where
  tracks_length := rfl
  relDir_ne := by decide
  normal := by decide
  dirs _ _ := rfl
  named leg := by
    cases leg with
    | system | mic => exact ⟨⟨_, rfl, rfl, rfl, rfl, rfl⟩, none, if_pos rfl⟩
  there leg := by
    have hfile : (quietPublished streams).media.finished (components quietClaim.relDir) leg =
        some (.file quietArchive) := by
      show (if components quietClaim.relDir = components quietClaim.relDir then
        some (Node.file quietArchive) else none) = _
      rw [if_pos rfl]
    cases leg <;> exact ⟨quietArchive, hfile, quiet_content _⟩

/-- Only the guard can hold the removal up. -/
theorem quietPublished_removed
    (hguard : guardForRetirement json "s" (stampedDir streams) = .ok ()) :
    (retire briefOpus json (quietPublished streams)).state.session = none := by
  have hreturns := retire_returns ⟨⟨quietPublished_at streams, rfl, rfl,
    quietPublished_published streams⟩, quietPublished_whole streams, rfl, rfl⟩ rfl hguard
  rw [hreturns.2]

/-- The sources of a removed directory that anything is left of are complete, in the library
    and not open, exactly if no coverage journal was there without its audio. -/
theorem retire_evidence_iff {json : Replay.Json} {s : Disk} {dir : SessionDir} {m : Manifest}
    (hat : At s dir m) (hremoved : (retire lib json s).state.session = none) :
    (∀ source, Evidence dir source → Finished json dir m.id source) ↔
      ∀ source, (dir.streams source).dir.journal.isSome = true →
        (dir.streams source).dir.audio.isSome = true := by
  have hguard := guard_of_removed hat hremoved
  constructor
  · intro hall source hjournal
    exact (hall source (.inr (.inl hjournal))).audio
  · intro hjournals source hevidence
    rcases sourceRetirable_iff.mp (guard_sources hguard source) with
      hfinished | ⟨haudio, hcompletion, hsealed⟩
    · exact hfinished
    · exfalso
      rcases hevidence with h | h | h | h
      · rw [haudio] at h
        exact absurd h nofun
      · have haudio' := hjournals source h
        rw [haudio] at haudio'
        exact absurd haudio' nofun
      · rw [hsealed] at h
        exact absurd h nofun
      · rw [hcompletion] at h
        exact absurd h nofun

/-- The system stream is complete and in the library; of the microphone there is nothing. -/
def finishedStreams : Replay.ReplaySource → Replay.Stream
  | .system => ⟨(Replay.run Replay.sampleJson .system (noStreams .system) Replay.sampleRun).dir,
    none⟩
  | .mic => noStreams .mic

/-- Such a session is removed, and what was left of its system stream is finished. -/
theorem retire_evidence_finished :
    (retire briefOpus Replay.sampleJson (quietPublished finishedStreams)).state.session = none ∧
    Evidence (stampedDir finishedStreams) .system ∧
    ∀ source, Evidence (stampedDir finishedStreams) source →
      Finished Replay.sampleJson (stampedDir finishedStreams) "s" source := by
  have hguard : retirementGuard Replay.sampleJson (stampedDir finishedStreams) "s" = .ok true := by
    decide +kernel
  have hremoved : (retire briefOpus Replay.sampleJson
      (quietPublished finishedStreams)).state.session = none :=
    quietPublished_removed finishedStreams (by rw [guardForRetirement, hguard])
  refine ⟨hremoved, .inl (by decide), ?_⟩
  refine (retire_evidence_iff (quietPublished_at finishedStreams) hremoved).mpr fun source => ?_
  cases source with
  | system => exact fun _ => by decide
  | mic =>
    intro hjournal
    cases hjournal

/-- Of the microphone a coverage journal is left. -/
def journalOnly (source : Replay.ReplaySource) : Replay.Stream :=
  ⟨⟨none, none, none, none, if source = .mic then some 1 else none⟩, none⟩

/-- A coverage journal whose audio is missing goes with the directory. -/
theorem retire_removes_journal :
    (retire briefOpus unreadJson (quietPublished journalOnly)).state.session = none ∧
    Evidence (stampedDir journalOnly) .mic ∧
    ¬ Finished unreadJson (stampedDir journalOnly) "s" .mic := by
  refine ⟨quietPublished_removed journalOnly rfl, .inr (.inl rfl), fun h => ?_⟩
  exact absurd h.audio nofun

/-! ## Whose promotion is returned -/

/-- The promotion is that of the claim's meeting, and its tracks lie in the claim's directory. -/
structure Names (c : Claim) (q : Promotion) : Prop where
  meetingId : q.meetingId = c.meetingId
  relDir : q.relDir = c.relDir
  tracks_length : q.tracks.length = 2
  tracks : ∀ leg, ∃ t ∈ q.tracks, t.channel = channel leg ∧
    t.relPath = c.relDir ++ "/" ++ leg.opus

/-- The session, while it is there, is claimed by `c`. -/
def ClaimedBy (c : Claim) (s : Disk) : Prop := ∀ dir m, At s dir m → m.claim = some c

theorem claimedBy_change {c : Claim} {s t : Disk} (h : Change lib False .promotes s t)
    (hs : ClaimedBy c s) : ClaimedBy c t := by
  intro dir m hat
  cases h with
  | syncFinished | swept | mkdir | part | finish => exact hs dir m ⟨hat.session, hat.manifest⟩
  | retire => exact absurd hat.session nofun
  | syncSource hold leg track =>
    cases hat.session
    exact hs _ _ ⟨hold.session, (sameSession_syncSource leg track _).manifest_eq ▸ hat.manifest⟩
  | encoding _ hold =>
    cases hat.session
    exact hs _ _ ⟨hold.session, hat.manifest⟩
  | encoded _ hold | recorded _ hold =>
    cases hat.session
    cases hat.manifest
    have hclaim := hs _ _ hold
    exact hclaim
  | claimed hany | stamped hany => cases hany

variable {codecs : Codecs σ δ φ ρ} {json : Replay.Json} {env : EncodeEnv}

/-- What `promote` returns names the meeting that claims the session exactly if a stamped
    promotion that still verifies does. -/
theorem promotion_names_claim_iff {s after : Disk} {dir : SessionDir} {m : Manifest} {c : Claim}
    {q : Promotion} (hat : At s dir m) (hc : m.claim = some c)
    (hreturns : (promote codecs json env).Returns s q after) :
    Names c q ↔ ∀ p e, m.promoted = some p → m.encoded = some e →
      Published codecs.lib p m e dir s.media → p.meetingId = c.meetingId ∧ p.relDir = c.relDir := by
  by_cases hpub : ∃ p e, m.promoted = some p ∧ m.encoded = some e ∧
      Published codecs.lib p m e dir s.media
  · obtain ⟨p, e, hp, he, hpublished⟩ := hpub
    obtain rfl := ((promote_intact (.refl : Evolves codecs.lib False .promotes s s) hat hp he
      hpublished).post s rfl).2 q hreturns.1
    constructor
    · intro hnames p' e' hp' _ _
      cases mem_unique hp hp'
      exact ⟨hnames.meetingId, hnames.relDir⟩
    · intro hall
      obtain ⟨hmeeting, hdir⟩ := hall q e hp he hpublished
      refine ⟨hmeeting, hdir, hpublished.tracks_length, fun leg => ?_⟩
      obtain ⟨t, hfind, hpath, -⟩ := (hpublished.named leg).listed
      exact ⟨t, List.mem_of_find?_eq_some hfind, by simpa using List.find?_some hfind, hdir ▸ hpath⟩
  · refine ⟨fun _ p e hp he h => absurd ⟨p, e, hp, he, h⟩ hpub, fun _ => ?_⟩
    have hspec : Spec (· = s) (promote codecs json env) (fun r _ => ∀ q, r = .ok q → Names c q)
        (Evolves codecs.lib False .promotes s) := by
      refine promote_cases .refl hat (fun _ _ _ => nofun)
        (fun p e hp he h => absurd ⟨p, e, hp, he, h⟩ hpub) fun _ t ht hsession => ?_
      refine (publishAndRetire_record False.elim (by decide) ht hsession).mono fun r _ h q hq => ?_
      obtain ⟨u, dir', m', c', e', hevolves, -, hat', hc', -, rfl, -⟩ := h.2 q hq
      have hkept : ClaimedBy c u :=
        evolves_invariant hevolves (fun d m1 h => (hat.eq h).2 ▸ hc) fun _ _ => claimedBy_change
      obtain rfl : c' = c := mem_unique hc' (hkept dir' m' hat')
      exact ⟨rfl, rfl, rfl, fun leg => by cases leg <;> simp [recordOf, trackOf]⟩
    exact hspec.post s rfl q hreturns.1

/-- The silent session, stamped for the meeting `m` and claimed by `c`. -/
def stampedDisk (c : Claim) : Disk :=
  setManifest (quietPublished noStreams) (quietDir noStreams none)
    { stampedManifest with claim := some c }

/-- A promotion returns what is stamped, whoever claims the session. -/
theorem stampedDisk_returns (c : Claim) (hne : c.relDir.isEmpty = false)
    (hnormal : (components c.relDir).all Component.isNormal = true) :
    ∃ after, (promote briefCodecs unreadJson firstEnv).Returns (stampedDisk c)
      (recordOf quietClaim quietTracks) after := by
  let m : Manifest := { stampedManifest with claim := some c }
  let dir := { quietDir noStreams none with manifest := some m }
  have hfree : Unobstructed briefCodecs.lib (stampedDisk c) dir m c quietTracks :=
    ⟨⟨rfl, rfl⟩, rfl, rfl, rfl, rfl, quiet_verified noStreams none, rfl, hne, hnormal,
      fun _ _ => nofun⟩
  have hpublished : Published briefCodecs.lib (recordOf quietClaim quietTracks) m quietTracks dir
      (stampedDisk c).media :=
    (quietPublished_published noStreams).transfer rfl rfl (fun _ _ => rfl) fun _ _ _ h => h
  have hsettled : Settled dir := by
    refine ⟨fun _ _ h => absurd h nofun, fun _ _ _ _ leg path file _ hfile => ?_⟩
    cases hfile
    rfl
  obtain ⟨q, after, hreturns, -⟩ := promote_returns unreadJson hfree
    (quietPublished_whole noStreams) rfl hsettled firstEnv
  obtain rfl := ((promote_intact (.refl : Evolves briefCodecs.lib False .promotes _ _) hfree.at_ rfl
    rfl hpublished).post _ rfl).2 q hreturns.1
  exact ⟨after, hreturns⟩

/-- Claimed once more by the meeting it is stamped for. -/
theorem promotion_names_claim_stamped :
    ∃ after, (promote briefCodecs unreadJson firstEnv).Returns (stampedDisk quietClaim)
        (recordOf quietClaim quietTracks) after ∧
      Names quietClaim (recordOf quietClaim quietTracks) := by
  obtain ⟨after, hreturns⟩ := stampedDisk_returns quietClaim (by decide) (by decide)
  refine ⟨after, hreturns, (promotion_names_claim_iff ⟨rfl, rfl⟩ rfl hreturns).mpr ?_⟩
  intro p e hp _ _
  cases hp
  exact ⟨rfl, rfl⟩

/-- The silent session is published and stamped for the meeting `m`; the meeting `n` claims it,
    and the promotion of `m` is returned. -/
theorem promotion_names_former_claim :
    ∃ mid after, (claim "n" 0).Returns (quietPublished noStreams) (claimOf "n" 0) mid ∧
      (promote briefCodecs unreadJson firstEnv).Returns mid (recordOf quietClaim quietTracks)
        after ∧ (recordOf quietClaim quietTracks).meetingId ≠ (claimOf "n" 0).meetingId := by
  obtain ⟨after, hreturns⟩ := stampedDisk_returns (claimOf "n" 0) (by decide) (by decide)
  exact ⟨stampedDisk (claimOf "n" 0), after, ⟨rfl, rfl⟩, hreturns, by decide⟩

end

end FlyOnTheWall.Promote
