/-
  What promotion can do to the disk, one step at a time.

  * `ContentOk`: verification of an archive without the question where it lies.
  * `Change`: the steps, each with what is known when it is taken.
  * `publish_spec`, `encode_spec`, `retire_spec`, ...: every moment of a program is reached by
    such steps; `call_preserves` says it of any call.
-/
import FlyOnTheWall.Pipeline.Promote
import FlyOnTheWall.Pipeline.WalEncode
import Mathlib.Logic.Relation

namespace FlyOnTheWall.Promote
open Lib Opus Wal List Option Spec Except DurableFile

section
variable {σ δ φ ρ : Type} {lib : Libopus σ δ}

variable {leg : Leg} {track : EncodedTrack} {format : Option TrackFormat}

/-! ## Published tracks -/

def trackOf (relDir : String) (leg : Leg) (track : EncodedTrack) : PromotedTrack :=
  ⟨channel leg, relDir ++ "/" ++ leg.opus, track.opusBytes, track.durationMs, track.sampleRateHz⟩

/-- The record of the tracks of an encode, published where a claim says. -/
def recordOf (claim : Claim) (encoded : EncodedSession) : Promotion :=
  ⟨claim.meetingId, claim.relDir,
    [trackOf claim.relDir .system encoded.system, trackOf claim.relDir .mic encoded.mic]⟩

/-- The archive of a leg in the session directory passes verification. -/
def SourceVerified (lib : Libopus σ δ) (dir : SessionDir) (manifest : Manifest)
    (encoded : EncodedSession) (leg : Leg) : Prop :=
  verifyEncodedTrack lib dir.archives leg (encoded.of leg)
    (some ((manifest.trackFormats dir.pcm).of leg)) = .ok ()

/-- A finished name holds an archive with this content. -/
def TrackThere (lib : Libopus σ δ) (media : Media) (path : List Component) (leg : Leg)
    (track : EncodedTrack) (format : TrackFormat) : Prop :=
  ∃ file, media.finished path leg = some (.file file) ∧
    ContentOk lib track (some format) file.bytes

/-- What `verify` asks of one track, the file apart. -/
structure TrackNamed (promoted : Promotion) (encoded : EncodedSession) (leg : Leg)
    (dir : SessionDir) : Prop where
  listed : ∃ t, promoted.tracks.find? (·.channel == channel leg) = some t ∧
    t.relPath = promoted.relDir ++ "/" ++ leg.opus ∧ t.bytes = (encoded.of leg).opusBytes ∧
    t.durationMs = (encoded.of leg).durationMs ∧ t.sampleRateHz = (encoded.of leg).sampleRateHz
  source : ∃ path, archivePath dir.archives leg (encoded.of leg).file = .ok path

section
variable (lib : Libopus σ δ) (promoted : Promotion) (manifest : Manifest) (encoded : EncodedSession)

/-- One track is recorded as it should be, and there. -/
def TrackPublished (leg : Leg) (dir : SessionDir) (media : Media) : Prop :=
  TrackNamed promoted encoded leg dir ∧ TrackThere lib media (components promoted.relDir) leg
    (encoded.of leg) ((manifest.trackFormats dir.pcm).of leg)

structure Published (dir : SessionDir) (media : Media) : Prop where
  tracks_length : promoted.tracks.length = 2
  relDir_ne : promoted.relDir.isEmpty = false
  normal : (components promoted.relDir).all Component.isNormal = true
  dirs : ∀ path ∈ ancestors (components promoted.relDir), media.entries path = some true
  named : ∀ leg, TrackNamed promoted encoded leg dir
  there : ∀ leg, TrackThere lib media (components promoted.relDir) leg (encoded.of leg)
    ((manifest.trackFormats dir.pcm).of leg)

end

theorem io_eq_ok {α : Type} {what : String} {r : Except IoError α} {a : α} :
    io what r = .ok a ↔ r = .ok a := by
  cases r <;> simp [io]

variable {media : Media} {path : List Component}

theorem archiveDir_iff {format : TrackFormat} : verifyEncodedTrack lib (media.archiveDir path) leg
      { track with file := leg.opus } (some format) = .ok () ↔
        TrackThere lib media path leg track format := by
  rw [verifyEncodedTrack_iff_content]
  have hpath : archivePath (media.archiveDir path) leg leg.opus = .ok none := if_pos rfl
  constructor
  · rintro ⟨place, file, hplace, hfile, hcontent⟩
    obtain rfl := ok.inj (hpath.symm.trans hplace)
    exact ⟨file, hfile, hcontent.rename track.file⟩
  · rintro ⟨file, hfile, hcontent⟩
    exact ⟨none, file, hpath, hfile, hcontent.rename leg.opus⟩

variable {dir dir' : SessionDir}

theorem checkPublished_iff {promoted : Promotion} {manifest : Manifest} {encoded : EncodedSession} :
    checkPublished lib promoted manifest encoded leg dir media = .ok () ↔
      TrackPublished lib promoted manifest encoded leg dir media := by
  simp only [checkPublished, bind_eq_ok, refuseIf_eq_ok, okOr_eq_ok, io_eq_ok, archiveDir_iff,
    Bool.or_eq_false_iff, bne_eq_false_iff_eq]
  constructor
  · rintro ⟨t, hfind, _, ⟨⟨⟨hrel, hbytes⟩, hduration⟩, hrate⟩, _, -, path, hpath, hthere⟩
    exact ⟨⟨⟨t, hfind, hrel, hbytes, hduration, hrate⟩, path, hpath⟩, hthere⟩
  · rintro ⟨⟨⟨t, hfind, hrel, hbytes, hduration, hrate⟩, path, hpath⟩, hthere⟩
    obtain ⟨file, hfile, hcontent⟩ := id hthere
    refine ⟨t, hfind, (), ⟨⟨⟨hrel, hbytes⟩, hduration⟩, hrate⟩, (), ?_, path, hpath, hthere⟩
    rw [hfile, map_some, Node.len, hcontent.length_eq, hbytes]

/-! ## Files up to what is synced -/

/-- Names with the same bytes hold the same content. -/
theorem file_iff {a b : Option Node} (h : ∀ bytes, (∃ file, a = some (.file file) ∧
      file.bytes = bytes) ↔ ∃ file, b = some (.file file) ∧ file.bytes = bytes)
    (P : List UInt8 → Prop) : (∃ file, a = some (.file file) ∧ P file.bytes) ↔
      ∃ file, b = some (.file file) ∧ P file.bytes := by
  constructor
  · rintro ⟨file, hfile, hP⟩
    obtain ⟨file', hfile', hbytes⟩ := (h file.bytes).mp ⟨file, hfile, rfl⟩
    exact ⟨file', hfile', hbytes ▸ hP⟩
  · rintro ⟨file, hfile, hP⟩
    obtain ⟨file', hfile', hbytes⟩ := (h file.bytes).mpr ⟨file, hfile, rfl⟩
    exact ⟨file', hfile', hbytes ▸ hP⟩

/-- The same names with the same bytes. -/
structure SameMedia (media media' : Media) : Prop where
  entries_eq : media'.entries = media.entries
  finished_iff : ∀ path leg bytes, (∃ file, media'.finished path leg = some (.file file) ∧
    file.bytes = bytes) ↔ ∃ file, media.finished path leg = some (.file file) ∧ file.bytes = bytes

theorem SameMedia.refl (media : Media) : SameMedia media media := ⟨rfl, fun _ _ _ => Iff.rfl⟩

theorem SameMedia.trans {a b c : Media} (h : SameMedia a b) (h' : SameMedia b c) : SameMedia a c :=
  ⟨h'.entries_eq.trans h.entries_eq, fun path leg bytes =>
    (h'.finished_iff path leg bytes).trans (h.finished_iff path leg bytes)⟩

theorem sameMedia_syncFinished (media : Media) (path : List Component) (leg : Leg) :
    SameMedia media (media.syncFinished path leg) := by
  rw [Media.syncFinished]
  split
  · next file hfile =>
    refine ⟨rfl, fun p l bytes => ?_⟩
    simp only [Media.setFinished]
    split
    · next hsame =>
      simp [hsame, hfile]
    · rfl
  · exact SameMedia.refl media

theorem TrackThere.congr {media' : Media} (h : SameMedia media media') {format : TrackFormat} :
    TrackThere lib media' path leg track format ↔ TrackThere lib media path leg track format :=
  file_iff (h.finished_iff path leg) _

section
variable (media : Media) (path : List Component) (leg : Leg)

/-- Whatever a finished name holds has reached the disk. -/
def SyncedName : Prop :=
  ∀ file, media.finished path leg = some (.file file) → file.synced = file.bytes.length

theorem syncedName_syncFinished_self : SyncedName (media.syncFinished path leg) path leg := by
  intro file hfile
  rw [Media.syncFinished] at hfile
  split at hfile
  · simp only [Media.setFinished, and_self, if_true] at hfile
    cases hfile
    rfl
  · next hnone =>
    exact absurd hfile (hnone file)

end

theorem SyncedName.syncFinished (h : SyncedName media path leg) (path' : List Component)
    (leg' : Leg) : SyncedName (media.syncFinished path' leg') path leg := by
  intro file hfile
  rw [Media.syncFinished] at hfile
  split at hfile
  · simp only [Media.setFinished] at hfile
    split at hfile
    · cases hfile
      rfl
    · exact h file hfile
  · exact h file hfile

/-- The same directory, its archives with the same bytes. -/
structure SameSession (dir dir' : SessionDir) : Prop where
  rest : dir' = { dir with archives := dir'.archives }
  generations_eq : dir'.archives.generations = dir.archives.generations
  files_iff : ∀ place leg bytes, (∃ file, dir'.archives.files place leg = some (.file file) ∧
    file.bytes = bytes) ↔ ∃ file, dir.archives.files place leg = some (.file file) ∧
      file.bytes = bytes

theorem SameSession.refl (dir : SessionDir) : SameSession dir dir :=
  ⟨rfl, rfl, fun _ _ _ => Iff.rfl⟩

theorem SameSession.trans {a b c : SessionDir} (h : SameSession a b) (h' : SameSession b c) :
    SameSession a c := by
  refine ⟨?_, h'.generations_eq.trans h.generations_eq, fun place leg bytes =>
    (h'.files_iff place leg bytes).trans (h.files_iff place leg bytes)⟩
  have hb := h.rest
  have hc := h'.rest
  rw [hb] at hc
  exact hc

theorem SameSession.manifest_eq (h : SameSession dir dir') : dir'.manifest = dir.manifest := by
  rw [h.rest]

theorem SameSession.pcm_eq (h : SameSession dir dir') : dir'.pcm = dir.pcm := by
  rw [h.rest]

theorem sameSession_syncSource (leg : Leg) (track : EncodedTrack) (dir : SessionDir) :
    SameSession dir (syncSource leg track dir) := by
  rw [syncSource]
  split
  · exact SameSession.refl dir
  split
  · next file hfile =>
    refine ⟨rfl, rfl, fun place l bytes => ?_⟩
    simp only [ArchiveDir.setFile]
    split
    · next hsame =>
      simp [hsame, hfile]
    · rfl
  · exact SameSession.refl dir

theorem archivePath_congr {a b : ArchiveDir} (h : b.generations = a.generations) (leg : Leg)
    (name : String) : archivePath b leg name = archivePath a leg name := by
  rw [archivePath, archivePath, h]

variable {m : Manifest} {e : EncodedSession}

theorem SameSession.verified_iff (h : SameSession dir dir') :
    SourceVerified lib dir' m e leg ↔ SourceVerified lib dir m e leg := by
  rw [SourceVerified, SourceVerified, verifyEncodedTrack_iff_content,
    verifyEncodedTrack_iff_content,
    h.pcm_eq, archivePath_congr h.generations_eq]
  refine exists_congr fun path => ?_
  rw [exists_and_left, exists_and_left]
  exact and_congr_right fun _ => file_iff (h.files_iff path leg) _

/-- A verified source can be opened, and has the content that was verified. -/
theorem SourceVerified.sourceFile (h : SourceVerified lib dir m e leg) :
    ∃ file, sourceFile dir leg (e.of leg) = .ok file ∧
      ContentOk lib (e.of leg) (some ((m.trackFormats dir.pcm).of leg)) file.bytes := by
  obtain ⟨path, file, hpath, hfile, hcontent⟩ := verifyEncodedTrack_iff_content.mp h
  refine ⟨file, ?_, hcontent⟩
  rw [Promote.sourceFile, hpath, ok_bind, hfile]
  rfl

/-! ## Steps -/

/-- The archives that are recorded have reached the disk. -/
def SettledArchives (dir : SessionDir) (encoded : EncodedSession) : Prop :=
  ∀ leg path file, archivePath dir.archives leg (encoded.of leg).file = .ok path →
    dir.archives.files path leg = some (.file file) → file.synced = file.bytes.length

/-- The session directory and its manifest. -/
structure At (disk : Disk) (dir : SessionDir) (manifest : Manifest) : Prop where
  session : disk.session = some dir
  manifest : dir.manifest = some manifest

variable {s s₁ : Disk} {m' : Manifest}

theorem At.eq (h : At s dir m) (h' : At s dir' m') : dir = dir' ∧ m = m' := by
  obtain rfl : dir = dir' := mem_unique h.session h'.session
  exact ⟨rfl, mem_unique h.manifest h'.manifest⟩

def setManifest (disk : Disk) (dir : SessionDir) (manifest : Manifest) : Disk :=
  disk.setSession { dir with manifest := some manifest }

def setMedia (disk : Disk) (media : Media) : Disk := { disk with media }

/-- How much of promotion is running: only checks and the removal, a promotion, or anything. -/
inductive Scope
  | checks
  | promotes
  | any
  deriving DecidableEq, Repr

/-- One step. Of the tracks that an encode records, `laws` is what their verification rests
    on. -/
inductive Change (lib : Libopus σ δ) (laws : Prop) (scope : Scope) : Disk → Disk → Prop
  | syncSource {s d m} (at_ : At s d m) (leg : Leg) (track : EncodedTrack) :
      Change lib laws scope s (s.setSession (syncSource leg track d))
  | syncFinished (s : Disk) (path : List Component) (leg : Leg) :
      Change lib laws scope s (setMedia s (s.media.syncFinished path leg))
  | retire {s d m p e} (at_ : At s d m) (hp : m.promoted = some p) (he : m.encoded = some e)
      (published : Published lib p m e d s.media)
      (synced : ∀ leg, SyncedName s.media (components p.relDir) leg)
      (raw : verifyRetainedPcm d e = .ok ()) :
      Change lib laws scope s { s with session := none, retired := some d }
  | swept (s : Disk) : Change lib laws scope s { s with retired := none }
  | encoding {s d m} (h : scope ≠ .checks) (at_ : At s d m) (he : m.encoded = none)
      (archives : ArchiveDir) : Change lib laws scope s (s.setSession { d with archives })
  | encoded {s d m} (h : scope ≠ .checks) (at_ : At s d m) (he : m.encoded = none)
      (e : EncodedSession) (raw : ∀ leg, (e.of leg).pcmBytes = d.rawLength leg)
      (settled : SettledArchives d e)
      (verified : laws → ∀ leg, Verifiable (m.trackFormats d.pcm) d leg →
        SourceVerified lib d { m with encoded := some e } e leg) :
      Change lib laws scope s (setManifest s d { m with encoded := some e })
  | mkdir (s : Disk) (h : scope ≠ .checks) {m c} {d : SessionDir} (at_ : At s d m)
      (hc : m.claim = some c) (path : List Component)
      (hpath : path ∈ ancestors (components c.relDir)) (hnone : s.media.entries path = none) :
      Change lib laws scope s (setMedia s { s.media with
        entries := fun p => if p = path then some true else s.media.entries p })
  | part (s : Disk) (h : scope ≠ .checks) (path : List Component) (leg : Leg)
      (file : DurableFile) : Change lib laws scope s (setMedia s (s.media.setPart path leg file))
  | finish {s d m c e} (h : scope ≠ .checks) (at_ : At s d m) (hc : m.claim = some c)
      (he : m.encoded = some e) (leg : Leg) (file : DurableFile)
      (dirs : ∀ path ∈ ancestors (components c.relDir), s.media.entries path = some true)
      (hpart : s.media.parts (components c.relDir) leg = some file)
      (synced : file.synced = file.bytes.length)
      (verified : SourceVerified lib d m e leg)
      (content : ContentOk lib (e.of leg) (some ((m.trackFormats d.pcm).of leg)) file.bytes) :
      Change lib laws scope s (setMedia s (s.media.finishPart (components c.relDir) leg))
  | recorded {s d m c e} (h : scope ≠ .checks) (at_ : At s d m) (hc : m.claim = some c)
      (he : m.encoded = some e) :
      Change lib laws scope s (setManifest s d { m with promoted := some (recordOf c e) })
  | claimed {s d m} (h : scope = .any) (at_ : At s d m) (meetingId : String) (ms : ℕ) :
      Change lib laws scope s (setManifest s d { m with claim := some (claimOf meetingId ms) })
  | stamped {s d m} (h : scope = .any) (at_ : At s d m) (p : Promotion) :
      Change lib laws scope s (setManifest s d { m with promoted := some p })

/-- Any number of steps. -/
abbrev Evolves (lib : Libopus σ δ) (laws : Prop) (scope : Scope) : Disk → Disk → Prop :=
  Relation.ReflTransGen (Change lib laws scope)

variable {laws : Prop}

theorem evolves_invariant {scope : Scope} {t : Disk} {I : Disk → Prop}
    (h : Evolves lib laws scope s t) (hs : I s)
    (hchange : ∀ s t, Change lib laws scope s t → I s → I t) :
    I t := by
  induction h with
  | refl => exact hs
  | tail _ hstep ih => exact hchange _ _ hstep ih

/-! ## Programs that look at the session -/

variable {scope : Scope} {s₀ : Disk} {α β : Type} {f : SessionDir → Except PromoteError α}
  {g : α → PromoteProg β}

theorem bind_readSession {P : Disk → Prop} {Q : Except PromoteError β → Disk → Prop}
    {C : Disk → Prop} (hsession : ∀ s, P s → s.session = some dir)
    (herr : ∀ e, f dir = .error e → ∀ s, P s → Q (.error e) s)
    (hok : ∀ a, f dir = .ok a → Spec P (g a) Q C) : Spec P (readSession f >>= g) Q C := by
  refine bind_known (fun s hs => ?_) herr hok
  rw [hsession s hs]

/-- A program that is cut at its first read. -/
theorem bind_readSession_none (h : s.session = none) :
    (readSession f >>= g) s = ⟨.error .noSession, s, []⟩ := by
  have hrun : (readSession f >>= g) s = Prog.bind (readSession f) g s := rfl
  have hread : readSession f s = ⟨.error .noSession, s, []⟩ := by
    rw [readSession, Prog.read, h]
  rw [hrun, Prog.bind, hread]

/-! ## Verification -/

/-- While published tracks are verified: the session as it was, the media up to syncs, and the
    tracks that have been synced. -/
structure Verifying (lib : Libopus σ δ) (laws : Prop) (scope : Scope) (s₀ : Disk) (dir : SessionDir)
    (media : Media) (path : List Component) (synced : Leg → Prop) (s : Disk) : Prop where
  evolves : Evolves lib laws scope s₀ s
  session : s.session = some dir
  same : SameMedia media s.media
  synced_of : ∀ leg, synced leg → SyncedName s.media path leg

theorem verifying_start (hevolves : Evolves lib laws scope s₀ s₁) (hsession : s₁.session = some dir)
    (path : List Component) : Verifying lib laws scope s₀ dir s₁.media path (fun _ => False) s₁ :=
  ⟨hevolves, hsession, .refl _, fun _ h => h.elim⟩

variable {p : Promotion} {synced : Leg → Prop}

theorem verifyPublished_spec :
    Spec (Verifying lib laws scope s₀ dir media (components p.relDir) synced)
      (verifyPublished lib p m e leg)
      (fun r s => match r with
        | .ok _ => TrackPublished lib p m e leg dir media ∧
          Verifying lib laws scope s₀ dir media (components p.relDir)
            (fun l => synced l ∨ l = leg) s
        | .error _ => ¬ TrackPublished lib p m e leg dir media ∧
          Verifying lib laws scope s₀ dir media (components p.relDir) synced s)
      (Evolves lib laws scope s₀) := by
  have hcheck : ∀ s, Verifying lib laws scope s₀ dir media (components p.relDir) synced s →
      (checkPublished lib p m e leg dir s.media = .ok () ↔
        TrackPublished lib p m e leg dir media) := by
    intro s hs
    rw [checkPublished_iff, TrackPublished, TrackThere.congr hs.same]
    rfl
  refine bind_read (fun s err hs hresult => ⟨fun h => ?_, hs⟩) fun _ => step ?_
  · rw [hs.session] at hresult
    exact error_ne_ok (hresult.symm.trans ((hcheck s hs).mpr h))
  · rintro s ⟨hs, hresult⟩
    rw [hs.session] at hresult
    have hnext := hs.evolves.tail (Change.syncFinished s (components p.relDir) leg)
    refine ⟨⟨(hcheck s hs).mp hresult, hnext, hs.session,
      hs.same.trans (sameMedia_syncFinished _ _ _), ?_⟩, hnext⟩
    rintro l (hl | rfl)
    · exact (hs.synced_of l hl).syncFinished _ _
    · exact syncedName_syncFinished_self _ _ _

theorem Verifying.weaken {synced' : Leg → Prop}
    (h : Verifying lib laws scope s₀ dir media path synced s)
    (hle : ∀ leg, synced' leg → synced leg) : Verifying lib laws scope s₀ dir media path
    synced' s :=
  ⟨h.evolves, h.session, h.same, fun leg hleg => h.synced_of leg (hle leg hleg)⟩

theorem verify_spec (dir : SessionDir) (media : Media) :
    Spec (Verifying lib laws scope s₀ dir media (components p.relDir) fun _ => False)
      (verify lib p m)
      (fun r s => match r with
        | .ok _ => (∃ e, m.encoded = some e ∧ Published lib p m e dir media) ∧
          Verifying lib laws scope s₀ dir media (components p.relDir) (fun _ => True) s
        | .error _ => (∀ e, m.encoded = some e → ¬ Published lib p m e dir media) ∧
          Verifying lib laws scope s₀ dir media (components p.relDir) (fun _ => False) s)
      (Evolves lib laws scope s₀) := by
  refine bind_check (fun err hnone s hs => ⟨fun e he => ?_, hs⟩) fun e he => ?_
  · rw [he] at hnone
    exact (error_ne_ok hnone.symm).elim
  have hencoded := okOr_eq_ok.mp he
  have honly : (¬ Published lib p m e dir media) →
      ∀ e', m.encoded = some e' → ¬ Published lib p m e' dir media := by
    intro hnot e' he'
    rw [hencoded] at he'
    exact some.inj he' ▸ hnot
  refine bind_check (fun err hrefused s hs => ⟨honly fun h => ?_, hs⟩) fun _ hshape => ?_
  · rw [h.tracks_length, h.relDir_ne, h.normal] at hrefused
    exact error_ne_ok hrefused.symm
  have hshape := refuseIf_eq_ok.mp hshape
  simp only [Bool.or_eq_false_iff, bne_eq_false_iff_eq, Bool.not_eq_false'] at hshape
  obtain ⟨⟨hlength, hrel⟩, hnormal⟩ := hshape
  have hsame : ∀ s, Verifying lib laws scope s₀ dir media (components p.relDir) (fun _ => False) s →
      refuseIf (!(ancestors (components p.relDir)).all fun path =>
        s.media.entries path == some true) mismatch =
      refuseIf (!(ancestors (components p.relDir)).all fun path =>
        media.entries path == some true) mismatch := by
    intro s hs
    rw [hs.same.entries_eq]
  refine bind_known hsame (fun err hrefused s hs => ⟨honly fun h => ?_, hs⟩) fun _ hdirs => ?_
  · have hall : (ancestors (components p.relDir)).all (fun path =>
        media.entries path == some true) = true :=
      all_eq_true.mpr fun path hpath => beq_iff_eq.mpr (h.dirs path hpath)
    rw [hall] at hrefused
    exact error_ne_ok hrefused.symm
  have hdirs : ∀ path ∈ ancestors (components p.relDir), media.entries path = some true := by
    have hall := refuseIf_eq_ok.mp hdirs
    rw [Bool.not_eq_false', List.all_eq_true] at hall
    exact fun path hpath => beq_iff_eq.mp (hall path hpath)
  refine seq verifyPublished_spec
    (fun err s h => ⟨honly fun hp => h.1 ⟨hp.named .system, hp.there .system⟩, h.2⟩)
    fun _ => assuming fun hsystem => verifyPublished_spec.mono fun r s h => ?_
  cases r with
  | ok u =>
    refine ⟨⟨e, hencoded, hlength, hrel, hnormal, hdirs, fun leg => ?_, fun leg => ?_⟩,
      h.2.weaken fun leg _ => ?_⟩
    · cases leg with
      | system => exact hsystem.1
      | mic => exact h.1.1
    · cases leg with
      | system => exact hsystem.2
      | mic => exact h.1.2
    · cases leg with
      | system => exact .inl (.inr rfl)
      | mic => exact .inr rfl
  | error err =>
    exact ⟨honly fun hp => h.1 ⟨hp.named .mic, hp.there .mic⟩, h.2.weaken fun _ hl => hl.elim⟩

/-! ## Retirement -/

/-- The directory is in place, or it went with both sources in order. -/
inductive AfterRetire (json : Replay.Json) (dir : SessionDir) : Disk → Prop
  | kept {s : Disk} (h : s.session = some dir) : AfterRetire json dir s
  | gone {s : Disk} {m : Manifest} (h : s.session = none) (hm : dir.manifest = some m)
      (hguard : guardForRetirement json m.id dir = .ok ()) : AfterRetire json dir s

variable {json : Replay.Json}

theorem retire_spec :
    Spec (fun s => Evolves lib laws scope s₀ s ∧ s.session = some dir) (retire lib json)
      (fun _ s => Evolves lib laws scope s₀ s ∧ AfterRetire json dir s)
      (Evolves lib laws scope s₀) := by
  refine pointwise fun s₁ ⟨hevolves, hsession⟩ => ?_
  have hdir : ∀ s, s = s₁ → s.session = some dir := fun s hs => hs ▸ hsession
  have hstart : ∀ s, s = s₁ → Evolves lib laws scope s₀ s ∧ AfterRetire json dir s :=
    fun s hs => ⟨hs ▸ hevolves, .kept (hdir s hs)⟩
  refine bind_readSession hdir (fun _ _ => hstart) fun _ _ => ?_
  refine bind_readSession hdir (fun _ _ => hstart) fun m hm => ?_
  refine bind_check (fun _ _ => hstart) fun p hp => ?_
  -- from here on the media may have been synced
  have hkept : ∀ {synced : Leg → Prop} s, Verifying lib laws scope s₀ dir s₁.media
      (components p.relDir) synced s → Evolves lib laws scope s₀ s ∧ AfterRetire json dir s :=
    fun s hs => ⟨hs.evolves, .kept hs.session⟩
  refine seq ((verify_spec dir s₁.media).start (verifying_start hevolves hsession _))
    (fun err s h => hkept s h.2) fun _ => assuming ?_
  rintro ⟨e, he, hpublished⟩
  refine bind_check (fun _ _ s hs => hkept s hs) fun e' he' => ?_
  obtain rfl : e = e' := some.inj (he.symm.trans (okOr_eq_ok.mp he'))
  refine bind_readSession (fun s hs => hs.session) (fun _ _ s hs => hkept s hs) fun _ hraw => ?_
  refine bind_readSession (fun s hs => hs.session) (fun _ _ s hs => hkept s hs) fun _ hguard => ?_
  refine bind_read (fun s _ hs _ => hkept s hs) fun _ => ?_
  refine bind_step (R := fun s => Evolves lib laws scope s₀ s ∧ s.session = none)
    (fun s hs => ?_) (step fun s hs => ?_)
  · obtain ⟨hs, -⟩ := hs
    have hpub : Published lib p m e dir s.media :=
      { hpublished with
        dirs := fun path hpath =>
          (congrFun hs.same.entries_eq path).trans (hpublished.dirs path hpath)
        there := fun leg => (TrackThere.congr hs.same).mpr (hpublished.there leg) }
    have hnext : Evolves lib laws scope s₀ { s with session := none, retired := some dir } :=
      hs.evolves.tail (Change.retire ⟨hs.session, okOr_eq_ok.mp hm⟩ (okOr_eq_ok.mp hp) he hpub
        (fun leg => hs.synced_of leg trivial) (io_eq_ok.mp hraw))
    rw [hs.session]
    exact ⟨⟨hnext, rfl⟩, hnext⟩
  · have hnext := hs.1.tail (Change.swept s)
    exact ⟨⟨hnext, .gone hs.2 (okOr_eq_ok.mp hm) hguard⟩, hnext⟩

/-- The removal at the end of a promotion is forgiven if the transcription is not finished. -/
theorem retireFinishedReplay_spec :
    Spec (fun s => Evolves lib laws scope s₀ s ∧ s.session = some dir)
      (retireFinishedReplay lib json)
      (fun _ s => Evolves lib laws scope s₀ s ∧ AfterRetire json dir s)
      (Evolves lib laws scope s₀) := by
  refine bind (R := fun _ s => Evolves lib laws scope s₀ s ∧ AfterRetire json dir s)
    (attempt retire_spec) fun r => ?_
  cases r with
  | ok u => exact pure fun _ h => h
  | error err =>
    cases err with
    | pendingTranscription => exact pure fun _ h => h
    | _ => exact read fun _ h => h

/-! ## Publishing -/

/-- While tracks are published: the session as it was up to syncs, and the directories that
    have been made. -/
structure Publishing (lib : Libopus σ δ) (laws : Prop) (scope : Scope) (s₀ : Disk)
    (dir : SessionDir)
    (made : List (List Component)) (s : Disk) : Prop where
  evolves : Evolves lib laws scope s₀ s
  session : ∃ dir', s.session = some dir' ∧ SameSession dir dir'
  dirs : ∀ path ∈ made, s.media.entries path = some true

theorem publishing_start (hevolves : Evolves lib laws scope s₀ s₁)
    (hsession : s₁.session = some dir) :
    Publishing lib laws scope s₀ dir [] s₁ :=
  ⟨hevolves, ⟨dir, hsession, .refl dir⟩, fun _ h => absurd h not_mem_nil⟩

theorem verifySource_spec (hm : dir.manifest = some m) :
    Spec (Publishing lib laws scope s₀ dir []) (verifySource lib m e leg)
      (fun r s => Publishing lib laws scope s₀ dir [] s ∧
        ∀ u, r = .ok u → SourceVerified lib dir m e leg) (Evolves lib laws scope s₀) := by
  refine pointwise fun s₁ hs1 => ?_
  obtain ⟨dir', hsession, hsame⟩ := hs1.session
  refine bind_readSession (fun s hs => hs ▸ hsession) (fun err _ s hs => ⟨hs ▸ hs1, nofun⟩)
    fun _ hverified => ?_
  have hverified := hsame.verified_iff.mp (io_eq_ok.mp hverified)
  refine step ?_
  rintro s rfl
  have hat : At s dir' m := ⟨hsession, hsame.manifest_eq.trans hm⟩
  have hnext := hs1.evolves.tail (Change.syncSource hat leg (e.of leg))
  have hstate : { s with session := s.session.map (syncSource leg (e.of leg)) } =
      s.setSession (syncSource leg (e.of leg) dir') := by
    rw [hsession]
    rfl
  rw [hstate]
  refine ⟨⟨⟨hnext, ⟨_, rfl, hsame.trans (sameSession_syncSource _ _ _)⟩, ?_⟩,
    fun _ _ => hverified⟩, hnext⟩
  exact fun path hpath => absurd hpath not_mem_nil

variable {c : Claim} {made : List (List Component)}

theorem setPart_self (media : Media) (path : List Component) (leg : Leg) (file : DurableFile) :
    (media.setPart path leg file).parts path leg = some file := if_pos ⟨rfl, rfl⟩

section
variable (hscope : scope ≠ .checks)
include hscope

theorem createDirs_spec (hm : dir.manifest = some m)
    (hc : m.claim = some c) {paths : List (List Component)}
    (hpaths : ∀ path ∈ paths, path ∈ ancestors (components c.relDir)) :
    Spec (Publishing lib laws scope s₀ dir made) (createDirs paths)
      (fun r s => Publishing lib laws scope s₀ dir made s ∧
        ∀ u, r = .ok u → Publishing lib laws scope s₀ dir (made ++ paths) s)
      (Evolves lib laws scope s₀) := by
  induction paths generalizing made with
  | nil =>
    refine pure fun s hs => ⟨hs, fun _ _ => ?_⟩
    rw [append_nil]
    exact hs
  | cons path paths ih =>
    have hrest := fun p hp => hpaths p (mem_cons_of_mem path hp)
    -- the rest of the directories, once this one is there
    have htail : Spec (Publishing lib laws scope s₀ dir (made ++ [path])) (createDirs paths)
        (fun r s => Publishing lib laws scope s₀ dir made s ∧
          ∀ u, r = .ok u → Publishing lib laws scope s₀ dir (made ++ path :: paths) s)
        (Evolves lib laws scope s₀) := by
      refine (ih hrest).conseq (fun _ h => h) (fun r s h => ⟨⟨h.1.evolves, h.1.session, ?_⟩, ?_⟩)
        fun _ h => h
      · exact fun p hp => h.1.dirs p (mem_append_left _ hp)
      · intro u hu
        have hall := h.2 u hu
        rw [append_assoc] at hall
        exact hall
    refine bind_read (fun s err hs h => (error_ne_ok h.symm).elim) fun entry => ?_
    match entry with
    | some true =>
      refine htail.conseq (fun s hs => ⟨hs.1.evolves, hs.1.session, fun p hp => ?_⟩)
        (fun _ _ h => h) fun _ h => h
      rcases mem_append.mp hp with hp | hp
      · exact hs.1.dirs p hp
      · rw [mem_singleton.mp hp]
        exact ok.inj hs.2
    | some false => exact read fun s hs => ⟨hs.1, nofun⟩
    | none =>
      refine bind_step (fun s hs => ?_) htail
      obtain ⟨dir', hsession, hsame⟩ := hs.1.session
      have hat : At s dir' m := ⟨hsession, hsame.manifest_eq.trans hm⟩
      have hnext := hs.1.evolves.tail (Change.mkdir s hscope hat hc path
        (hpaths path mem_cons_self) (ok.inj hs.2))
      refine ⟨⟨hnext, ⟨dir', hsession, hsame⟩, fun p hp => ?_⟩, hnext⟩
      show (if p = path then some true else s.media.entries p) = some true
      split
      · rfl
      · next hne =>
        rcases mem_append.mp hp with hp | hp
        · exact hs.1.dirs p hp
        · exact absurd (mem_singleton.mp hp) hne

theorem Publishing.setPart (h : Publishing lib laws scope s₀ dir made s)
    (path : List Component) (leg : Leg) (file : DurableFile) :
    Publishing lib laws scope s₀ dir made (setMedia s (s.media.setPart path leg file)) :=
  ⟨h.evolves.tail (Change.part s hscope path leg file), h.session, h.dirs⟩

theorem publishOne_spec (hm : dir.manifest = some m)
    (hc : m.claim = some c) (he : m.encoded = some e) (hverified : SourceVerified lib dir m e leg) :
    Spec (Publishing lib laws scope s₀ dir (ancestors (components c.relDir)))
      (publishOne (components c.relDir) c.relDir leg (e.of leg))
      (fun r s => Publishing lib laws scope s₀ dir (ancestors (components c.relDir)) s ∧
        ∀ t, r = .ok t → t = trackOf c.relDir leg (e.of leg)) (Evolves lib laws scope s₀) := by
  refine pointwise fun s₁ hs1 => ?_
  obtain ⟨dir', hsession, hsame⟩ := hs1.session
  have hverified' := hsame.verified_iff.mpr hverified
  obtain ⟨file, hfile, hcontent⟩ := hverified'.sourceFile
  refine bind_readSession (fun s hs => hs ▸ hsession) (fun err _ s hs => ⟨hs ▸ hs1, nofun⟩)
    fun source hsource => ?_
  obtain rfl : source = file := ok.inj ((io_eq_ok.mp hsource).symm.trans hfile)
  let P : Disk → Prop := fun s =>
    Publishing lib laws scope s₀ dir (ancestors (components c.relDir)) s ∧ s.session = some dir'
  refine bind_step (R := P) ?_ ?_
  · rintro s rfl
    have hnext := hs1.setPart hscope (components c.relDir) leg .empty
    exact ⟨⟨hnext, hsession⟩, hnext.evolves⟩
  refine bind_step (R := P) (fun s hs => ?_) ?_
  · have hnext := hs.1.setPart hscope (components c.relDir) leg (empty.writeAll source.bytes none).1
    exact ⟨⟨hnext, hs.2⟩, hnext.evolves⟩
  refine bind_check (fun err _ s hs => ⟨hs.1, nofun⟩) fun _ hwritten => ?_
  have hbytes : (empty.writeAll source.bytes none).1.bytes = source.bytes :=
    (writeAll_complete (by simpa using refuseIf_eq_ok.mp hwritten)).1
  refine bind_step (R := fun s => P s ∧ s.media.parts (components c.relDir) leg =
    some (empty.writeAll source.bytes none).1.sync) (fun s hs => ?_) ?_
  · have hnext := hs.1.setPart hscope (components c.relDir) leg
      (empty.writeAll source.bytes none).1.sync
    exact ⟨⟨⟨hnext, hs.2⟩, setPart_self _ _ _ _⟩, hnext.evolves⟩
  refine bind_read (fun s err hs _ => ⟨hs.1.1, nofun⟩) fun _ => ?_
  refine bind_step (R := Publishing lib laws scope s₀ dir (ancestors (components c.relDir)))
    ?_ (pure fun s hs => ⟨hs, ?_⟩)
  · rintro s ⟨⟨⟨hs, hsession'⟩, hpart⟩, -⟩
    have hat : At s dir' m := ⟨hsession', hsame.manifest_eq.trans hm⟩
    have hnext := hs.evolves.tail (Change.finish hscope hat hc he leg _ hs.dirs hpart rfl
      hverified' (by rw [sync_bytes, hbytes]; exact hcontent))
    have hentries : ∀ p, (s.media.finishPart (components c.relDir) leg).entries p =
        s.media.entries p := by
      intro p
      rw [Media.finishPart, hpart]
      rfl
    exact ⟨⟨hnext, ⟨dir', hsession', hsame⟩, fun path hpath =>
      (hentries path).trans (hs.dirs path hpath)⟩, hnext⟩
  · intro t ht
    rw [← ok.inj ht, trackOf, hcontent.length_eq]

/-- A publish keeps the session, and what it returns is the record of the claim. -/
theorem publish_spec : Spec (Publishing lib laws scope s₀ dir []) (publish lib)
      (fun r s => Publishing lib laws scope s₀ dir [] s ∧ ∀ p, r = .ok p →
        ∃ m c e, dir.manifest = some m ∧ m.claim = some c ∧ m.encoded = some e ∧
          p = recordOf c e) (Evolves lib laws scope s₀) := by
  refine pointwise fun s₁ hs1 => ?_
  obtain ⟨dir', hsession, hsame⟩ := hs1.session
  have hdir : ∀ s, s = s₁ → s.session = some dir' := fun s hs => hs ▸ hsession
  refine bind_readSession hdir (fun err _ s hs => ⟨hs ▸ hs1, nofun⟩) fun _ _ => ?_
  refine bind_readSession hdir (fun err _ s hs => ⟨hs ▸ hs1, nofun⟩) fun m hm => ?_
  have hm : dir.manifest = some m := hsame.manifest_eq.symm.trans (okOr_eq_ok.mp hm)
  refine bind_check (fun err _ s hs => ⟨hs ▸ hs1, nofun⟩) fun c hc => ?_
  obtain ⟨_, hc⟩ := bind_rest hc
  have hc := okOr_eq_ok.mp hc
  refine bind_check (fun err _ s hs => ⟨hs ▸ hs1, nofun⟩) fun e he => ?_
  have he := okOr_eq_ok.mp he
  have hforget : ∀ {made} s, Publishing lib laws scope s₀ dir made s →
      Publishing lib laws scope s₀ dir [] s :=
    fun s hs => ⟨hs.evolves, hs.session, fun _ h => absurd h not_mem_nil⟩
  refine bind_gain ((verifySource_spec hm).start hs1)
    (fun err s hs => ⟨hs, nofun⟩) fun _ => assuming fun hsystem => ?_
  refine bind_gain (verifySource_spec hm) (fun err s hs => ⟨hs, nofun⟩)
    fun _ => assuming fun hmic => ?_
  refine bind_gain (createDirs_spec hscope hm hc fun _ h => h) (fun err s hs => ⟨hs, nofun⟩)
    fun _ => ?_
  refine bind_gain ((publishOne_spec hscope hm hc he hsystem).pre fun s hs => hs.1)
    (fun err s hs => ⟨hforget s hs, nofun⟩) fun system => assuming fun hsystemTrack => ?_
  refine bind_gain (publishOne_spec hscope hm hc he hmic)
    (fun err s hs => ⟨hforget s hs, nofun⟩) fun mic => assuming fun hmicTrack => ?_
  refine pure fun s hs => ⟨hforget s hs, fun p hp => ⟨m, c, e, hm, hc, he, ?_⟩⟩
  rw [← ok.inj hp, hsystemTrack, hmicTrack]
  rfl

end

/-! ## Encoding -/

/-- Only the archives differ. -/
def OnlyArchives (dir dir' : SessionDir) : Prop := dir' = { dir with archives := dir'.archives }

theorem encodeArchives_preserves (codecs : Codecs σ δ φ ρ) (env : EncodeEnv) (dir : SessionDir) :
    (encodeArchives codecs env).Preserves (OnlyArchives dir) := by
  have hput : ∀ s (archives : ArchiveDir), OnlyArchives dir s →
      OnlyArchives dir { s with archives } := by
    intro s archives hs
    rw [hs]
    rfl
  have hlift : ∀ {α : Type} (f : SessionDir → Except IoError α),
      (liftIo f).Preserves (OnlyArchives dir) := fun f => Prog.Preserves.read.mapError
  have htrack : ∀ place leg format, (encodeTrack codecs env place leg format).Preserves
      (OnlyArchives dir) := by
    intro place leg format
    refine .bind .read fun d => .bind .read fun _ => .bind (.step fun s => hput s _) fun _ =>
      .bind .read fun p => ?_
    exact .bind (.step fun s => hput s _) fun _ => .bind .read fun _ =>
      .bind (.step fun s => hput s _) fun _ => .pure
  have hplace : ∀ replacement, (takePlace env.ids replacement).Preserves (OnlyArchives dir) := by
    intro replacement
    rw [takePlace]
    split
    · exact .map (.bind .read fun id => .bind (.step fun s => hput s _) fun _ => .pure)
    · exact .pure
  have hdrop : ∀ place s, OnlyArchives dir s → OnlyArchives dir (dropGeneration place s) := by
    intro place s hs
    cases place with
    | none => exact hs
    | some g => exact hput s _ hs
  refine .bind (hlift _) fun _ => .bind (hlift _) fun m => .bind (hlift _) fun _ =>
    .bind (hlift _) fun _ => .bind .read fun formats => .bind .read fun replacement =>
    .bind (hplace _) fun place => .bind (.onError ?_ (hdrop place)) fun _ => .pure
  exact .bind (htrack _ _ _) fun _ => .bind (htrack _ _ _) fun _ => .pure

variable {codecs : Codecs σ δ φ ρ} {env : EncodeEnv}

/-- The archives an encode is about to record are the raw legs', and have reached the disk. -/
theorem encodeArchives_settled {last : SessionDir}
    (h : (encodeArchives codecs env).Returns dir (m, e) last) :
    dir.manifest = some m ∧ (∀ leg, (e.of leg).pcmBytes = dir.rawLength leg) ∧
      SettledArchives last e := by
  obtain ⟨place, hready, htakes, hlegs⟩ := encodeArchives_iff.mp h
  obtain ⟨system, mid, hsystem, mic, hmic, rfl⟩ := returns_encodeLegs.mp hlegs
  obtain ⟨sysStats, sysPackets, -, -, rfl, rfl⟩ := encodeTrack_iff.mp hsystem
  obtain ⟨micStats, micPackets, -, -, rfl, rfl⟩ := encodeTrack_iff.mp hmic
  have hbytes : ∀ leg (track : EncodedTrack), (placed place leg track).pcmBytes =
      track.pcmBytes := by
    intro leg track
    cases place <;> rfl
  have hlength : ∀ leg, (dir.reserved place).rawLength leg = dir.rawLength leg := by
    intro leg
    rw [SessionDir.rawLength, reserved_pcm]
    rfl
  have hplace := (htakes.reserved.putArchive place .system
    (archiveFile (codecs.muxer.mux (env.serial .system) sysPackets))).putArchive place .mic
    (archiveFile (codecs.muxer.mux (env.serial .mic) micPackets))
  refine ⟨okOr_eq_ok.mp hready.manifest_eq, fun leg => ?_, fun leg path file hpath hfile => ?_⟩
  · cases leg with
    | system => exact (hbytes _ _).trans (hlength .system)
    | mic => exact (hbytes _ _).trans (hlength .mic)
  · cases leg with
    | system =>
      obtain rfl := ok.inj ((archivePath_placed hplace rfl).symm.trans hpath)
      have hput : (if place = place ∧ Leg.system = .mic then _ else
        if place = place ∧ Leg.system = .system then _ else _) = some (Node.file file) := hfile
      rw [if_neg (by simp), if_pos ⟨rfl, rfl⟩] at hput
      cases hput
      rfl
    | mic =>
      obtain rfl := ok.inj ((archivePath_placed hplace rfl).symm.trans hpath)
      have hput : (if place = place ∧ Leg.mic = .mic then _ else _) = some (Node.file file) := hfile
      rw [if_pos ⟨rfl, rfl⟩] at hput
      cases hput
      rfl

theorem encodeArchives_verified (lawful : Lawful codecs) {last : SessionDir}
    (h : (encodeArchives codecs env).Returns dir (m, e) last)
    (hleg : Verifiable (m.trackFormats dir.pcm) dir leg) :
    SourceVerified codecs.lib last { m with encoded := some e } e leg := by
  obtain ⟨m', hready, hleaves⟩ :=
    encodeSession_leaves lawful (encodeSession_iff.mpr ⟨m, last, h, rfl⟩)
  obtain ⟨-, hready', -⟩ := encodeArchives_iff.mp h
  obtain rfl : m' = m := ok.inj (hready.manifest_eq.symm.trans hready'.manifest_eq)
  have hformats := hleaves.trackFormats_eq hready
  show verifyEncodedTrack codecs.lib (recordTracks m' e last).archives leg (e.of leg)
    (some ((Manifest.trackFormats { m' with encoded := some e }
      (recordTracks m' e last).pcm).of leg)) = .ok ()
  rw [hformats]
  exact ((hleaves.archived leg).verifies_iff (trackFormats_sane m' dir.pcm leg)).mpr hleg

/-! ## Promotion -/

theorem stillPublished_spec (hevolves : Evolves lib laws scope s₀ s₁)
    (hsession : s₁.session = some dir) :
    Spec (· = s₁) (stillPublished lib m)
      (fun r s => (Evolves lib laws scope s₀ s ∧ s.session = some dir) ∧ ∀ b, r = .ok b →
        (b = true ↔ ∃ p e, m.promoted = some p ∧ m.encoded = some e ∧
          Published lib p m e dir s₁.media))
      (Evolves lib laws scope s₀) := by
  rw [stillPublished]
  cases hpromoted : m.promoted with
  | none =>
    refine pure ?_
    rintro s rfl
    refine ⟨⟨hevolves, hsession⟩, fun b hb => ?_⟩
    rw [← ok.inj hb]
    exact ⟨nofun, fun ⟨p, e, hp, _⟩ => absurd hp nofun⟩
  | some done =>
    refine bind (R := fun r s => (Evolves lib laws scope s₀ s ∧ s.session = some dir) ∧
      (r.isOk = true ↔ ∃ e, m.encoded = some e ∧ Published lib done m e dir s₁.media))
      (attempt (((verify_spec dir s₁.media).start (verifying_start hevolves hsession _)).mono
        fun r s h => ?_)) fun r => pure fun s hs => ⟨hs.1, fun b hb => ?_⟩
    · cases r with
      | ok u => exact ⟨⟨h.2.evolves, h.2.session⟩, fun _ => h.1, fun _ => rfl⟩
      | error err =>
        exact ⟨⟨h.2.evolves, h.2.session⟩, nofun, fun ⟨e, he, hp⟩ => absurd hp (h.1 e he)⟩
    · rw [← ok.inj hb, hs.2]
      constructor
      · rintro ⟨e, he, hp⟩
        exact ⟨done, e, rfl, he, hp⟩
      · rintro ⟨p, e, hp, he, hpub⟩
        cases hp
        exact ⟨e, he, hpub⟩

theorem writeManifest_spec (hat : At s dir m) (hs : Evolves lib laws scope s₀ s)
    (h : Change lib laws scope s (setManifest s dir m')) :
    Spec (· = s) (writeManifest m') (fun _ t => Evolves lib laws scope s₀ t ∧ t.session.isSome)
      (Evolves lib laws scope s₀) := by
  refine step ?_
  rintro t rfl
  have hstate : { t with session := t.session.map fun d => { d with manifest := some m' } } =
      setManifest t dir m' := by
    rw [hat.session]
    rfl
  rw [hstate]
  exact ⟨⟨hs.tail h, rfl⟩, hs.tail h⟩

theorem stamp_record_spec (hscope : scope ≠ .checks) (hm : dir.manifest = some m)
    (hc : m.claim = some c) (he : m.encoded = some e) :
    Spec (Publishing lib laws scope s₀ dir []) (stamp (recordOf c e))
      (fun _ s => Evolves lib laws scope s₀ s ∧ s.session.isSome) (Evolves lib laws scope s₀) := by
  refine pointwise fun s₁ hs1 => ?_
  obtain ⟨dir', hsession, hsame⟩ := hs1.session
  have hat : At s₁ dir' m := ⟨hsession, hsame.manifest_eq.trans hm⟩
  refine bind_readSession (fun s hs => hs ▸ hsession) ?_ fun m' h => ?_
  · rintro err - s rfl
    exact ⟨hs1.evolves, by rw [hsession]; rfl⟩
  · obtain rfl : m = m' := some.inj (hat.manifest.symm.trans (okOr_eq_ok.mp h))
    exact writeManifest_spec hat hs1.evolves (Change.recorded hscope hat hc he)

section
variable (hlaws : laws → Nonempty (Lawful codecs)) (hscope : scope ≠ .checks)
  (hevolves : Evolves codecs.lib laws scope s₀ s₁) (hsession : s₁.session = some dir)
include hlaws hscope hevolves hsession

/-- An encode leaves a session directory; one that is encoded already it leaves alone. -/
theorem encode_spec : Spec (· = s₁) (encode codecs env)
      (fun _ s => Evolves codecs.lib laws scope s₀ s ∧ s.session.isSome ∧
        ((∃ m, dir.manifest = some m ∧ m.encoded.isSome = true) → s = s₁))
      (Evolves codecs.lib laws scope s₀) := by
  refine bind_readSession (fun s hs => hs ▸ hsession) ?_ fun m hm => ?_
  · rintro err hnone s rfl
    exact ⟨hevolves, by rw [hsession]; rfl, fun _ => rfl⟩
  have hmanifest : dir.manifest = some m := okOr_eq_ok.mp hm
  split
  · refine pure ?_
    rintro s rfl
    exact ⟨hevolves, by rw [hsession]; rfl, fun _ => rfl⟩
  rename_i hencoded
  have hnone : m.encoded = none := by simpa using hencoded
  have hnot : ¬ ∃ m', dir.manifest = some m' ∧ m'.encoded.isSome = true := by
    rintro ⟨m', hm', hsome⟩
    rw [hmanifest] at hm'
    exact hencoded (some.inj hm' ▸ hsome)
  have hat : At s₁ dir m := ⟨hsession, hmanifest⟩
  have hencoding :
      ∀ d, OnlyArchives dir d → Evolves codecs.lib laws scope s₀ (s₁.setSession d) := by
    intro d hd
    rw [hd]
    exact hevolves.tail (Change.encoding hscope hat hnone d.archives)
  refine bind (R := fun _ s => Evolves codecs.lib laws scope s₀ s ∧ s.session.isSome)
    (zoom ?_ ?_) fun _ => pure fun s hs => ⟨hs.1, hs.2, fun h => absurd h hnot⟩
  · rintro s rfl hgone
    exact absurd (hsession.symm.trans hgone) nofun
  · rintro s d rfl hd
    obtain rfl : dir = d := mem_unique hsession hd
    have harchives : Spec (· = dir) (encodeArchives codecs env)
        (fun r d => OnlyArchives dir d ∧ ∀ a, r = .ok a →
          (encodeArchives codecs env).Returns dir a d)
        (fun d => Evolves codecs.lib laws scope s₀ (s.setSession d)) := by
      have honly : Spec (· = dir) (encodeArchives codecs env) (fun _ d => OnlyArchives dir d)
          (fun d => Evolves codecs.lib laws scope s₀ (s.setSession d)) :=
        (encodeArchives_preserves codecs env dir).conseq (fun d hd => hd ▸ rfl) (fun _ _ h => h)
          hencoding
      exact (honly.and (returns fun _ _ => trivial)).conseq (fun _ h => h) (fun _ _ h => h)
        fun _ h => h.1
    refine mapError (bind_gain harchives (fun err d hd => ?_) fun a => ?_)
    · exact ⟨hencoding d hd, rfl, fun h => absurd h hnot⟩
    · refine bind_step (R := fun d => Evolves codecs.lib laws scope s₀ (s.setSession d)) ?_
        (pure fun d hd => ⟨hd, rfl⟩)
      rintro d ⟨hreturns, honly⟩
      obtain ⟨m', e⟩ := a
      obtain ⟨hm', hraw, hsettled⟩ := encodeArchives_settled hreturns
      obtain rfl : m = m' := mem_unique hmanifest hm'
      have hd' : d.manifest = some m ∧ d.pcm = dir.pcm := by
        rw [honly]
        exact ⟨hmanifest, rfl⟩
      have hlength : ∀ leg, (e.of leg).pcmBytes = d.rawLength leg := by
        intro leg
        rw [hraw leg, SessionDir.rawLength, SessionDir.rawLength, hd'.2]
      have hverified : laws → ∀ leg, Verifiable (m.trackFormats d.pcm) d leg →
          SourceVerified codecs.lib d { m with encoded := some e } e leg := by
        intro h leg hleg
        obtain ⟨lawful⟩ := hlaws h
        rw [Verifiable, SessionDir.rawLength, hd'.2] at hleg
        exact encodeArchives_verified lawful hreturns hleg
      have hnext := (hencoding d honly).tail (Change.encoded hscope
        (⟨rfl, hd'.1⟩ : At (s.setSession d) d m) hnone e hlength hsettled hverified)
      exact ⟨hnext, hnext⟩

/-- What is returned is the record of the claim and of the tracks in a state on the way; a session
    that was encoded is in that state from the start. -/
theorem publishAndRetire_record : Spec (· = s₁) (publishAndRetire codecs json env)
      (fun r s => Evolves codecs.lib laws scope s₀ s ∧ ∀ q, r = .ok q → ∃ t dir' m c e,
        Evolves codecs.lib laws scope s₀ t ∧ Evolves codecs.lib laws scope t s ∧ At t dir' m ∧
          m.claim = some c ∧ m.encoded = some e ∧ q = recordOf c e ∧
          ((∃ m, dir.manifest = some m ∧ m.encoded.isSome = true) → t = s₁))
      (Evolves codecs.lib laws scope s₀) := by
  refine seq (encode_spec hlaws hscope hevolves hsession) (fun err s h => ⟨h.1, nofun⟩)
    fun _ => pointwise ?_
  rintro s ⟨hevolves', hsome, hunchanged⟩
  obtain ⟨dir', hdir'⟩ := isSome_iff_exists.mp hsome
  -- the rest starts from the tracks that are recorded by now
  refine conseq (Q := fun r u => Evolves codecs.lib laws scope s u ∧ ∀ q, r = .ok q →
      ∃ m c e, dir'.manifest = some m ∧ m.claim = some c ∧ m.encoded = some e ∧ q = recordOf c e)
    ?_ (fun _ h => h) (fun r u h => ⟨hevolves'.trans h.1, fun q hq => ?_⟩)
    fun u h => hevolves'.trans h
  · refine bind_gain ((publish_spec hscope).start (publishing_start .refl hdir'))
      (fun err t ht => ⟨ht.evolves, nofun⟩) fun p => assuming ?_
    rintro ⟨m', c', e', hm', hc', he', rfl⟩
    refine seq (stamp_record_spec hscope hm' hc' he') (fun err t h => ⟨h.1, nofun⟩)
      fun _ => pointwise ?_
    rintro t ⟨ht, htsome⟩
    obtain ⟨dir'', hdir''⟩ := isSome_iff_exists.mp htsome
    refine seq (retireFinishedReplay_spec.start ⟨ht, hdir''⟩)
      (fun err u h => ⟨h.1, nofun⟩) fun _ => pure fun u hu => ⟨hu.1, fun q hq => ?_⟩
    exact ⟨m', c', e', hm', hc', he', (ok.inj hq).symm⟩
  · obtain ⟨m', c', e', hm', hc', he', hrecord⟩ := h.2 q hq
    exact ⟨s, dir', m', c', e', hevolves', h.1, ⟨hdir', hm'⟩, hc', he', hrecord, hunchanged⟩

theorem publishAndRetire_spec : Spec (· = s₁) (publishAndRetire codecs json env)
      (fun r s => Evolves codecs.lib laws scope s₀ s ∧ ∀ q, r = .ok q → ∀ m c e,
        dir.manifest = some m → m.claim = some c → m.encoded = some e → q = recordOf c e)
      (Evolves codecs.lib laws scope s₀) := by
  refine (publishAndRetire_record hlaws hscope hevolves hsession).mono
    fun r s h => ⟨h.1, fun q hq m c e hm hc he => ?_⟩
  obtain ⟨t, dir', m', c', e', -, -, hat, hc', he', hrecord, hunchanged⟩ := h.2 q hq
  obtain rfl := hunchanged ⟨m, hm, by rw [he]; rfl⟩
  obtain ⟨rfl, rfl⟩ := hat.eq ⟨hsession, hm⟩
  obtain rfl : c' = c := mem_unique hc' hc
  obtain rfl : e' = e := mem_unique he' he
  exact hrecord

end

section
variable (hevolves : Evolves codecs.lib laws scope s₀ s₁) (hat : At s₁ dir m)
include hevolves hat

/-- A promotion whose stamp still holds only checks and removes; without one it goes on to
    publish. -/
theorem promote_cases {Q : Except PromoteError Promotion → Disk → Prop}
    (herr : ∀ err s, Evolves codecs.lib laws scope s₀ s → Q (.error err) s)
    (hintact : ∀ p e, m.promoted = some p → m.encoded = some e →
      Published codecs.lib p m e dir s₁.media → ∀ s, Evolves codecs.lib laws scope s₀ s →
        Q (.ok p) s)
    (hrest : (∀ p e, m.promoted = some p → m.encoded = some e →
        ¬ Published codecs.lib p m e dir s₁.media) →
      ∀ s, Evolves codecs.lib laws scope s₀ s → s.session = some dir →
        Spec (· = s) (publishAndRetire codecs json env) Q (Evolves codecs.lib laws scope s₀)) :
    Spec (· = s₁) (promote codecs json env) Q (Evolves codecs.lib laws scope s₀) := by
  refine bind_readSession (fun s hs => hs ▸ hat.session) ?_ fun m' hm' => ?_
  · rintro err - s rfl
    exact herr err s hevolves
  obtain rfl : m = m' := some.inj (hat.manifest.symm.trans (okOr_eq_ok.mp hm'))
  refine bind_check ?_ fun c _ => ?_
  · rintro err - s rfl
    exact herr err s hevolves
  refine bind_gain (stillPublished_spec hevolves hat.session)
    (fun err s hs => herr err s hs.1) fun b => assuming fun hb => ?_
  cases b with
  | false =>
    exact pointwise fun s hs => hrest
      (fun p e hp he hpub => absurd (hb.mpr ⟨p, e, hp, he, hpub⟩) nofun) s hs.1 hs.2
  | true =>
    obtain ⟨p, e, hp, he, hpub⟩ := hb.mp rfl
    rw [hp]
    exact seq retireFinishedReplay_spec (fun err s h => herr err s h.1)
      fun _ => pure fun s hs => hintact p e hp he hpub s hs.1

/-- A promotion whose stamp still holds returns the stamp. -/
theorem promote_intact (hp : m.promoted = some p) (he : m.encoded = some e)
    (hpublished : Published codecs.lib p m e dir s₁.media) :
    Spec (· = s₁) (promote codecs json env)
      (fun r s => Evolves codecs.lib laws scope s₀ s ∧ ∀ q, r = .ok q → q = p)
      (Evolves codecs.lib laws scope s₀) := by
  refine promote_cases hevolves hat (fun err s hs => ⟨hs, nofun⟩)
    (fun p' e' hp' _ _ s hs => ⟨hs, fun q hq => ?_⟩) fun hnot => absurd hpublished (hnot p e hp he)
  rw [← ok.inj hq]
  exact mem_unique hp' hp

end

/-- A promotion without a stamp that holds returns the record of the claim. -/
theorem promote_again (hlaws : laws → Nonempty (Lawful codecs)) (hscope : scope ≠ .checks)
    (hevolves : Evolves codecs.lib laws scope s₀ s₁) (hat : At s₁ dir m)
    (hnot : ∀ p e, m.promoted = some p → m.encoded = some e →
      ¬ Published codecs.lib p m e dir s₁.media) :
    Spec (· = s₁) (promote codecs json env)
      (fun r s => Evolves codecs.lib laws scope s₀ s ∧ ∀ q, r = .ok q → ∀ c e,
        m.claim = some c → m.encoded = some e → q = recordOf c e)
      (Evolves codecs.lib laws scope s₀) := by
  refine promote_cases hevolves hat (fun err s hs => ⟨hs, nofun⟩)
    (fun p e hp he h => absurd h (hnot p e hp he)) fun _ s hs hsession => ?_
  exact (publishAndRetire_spec hlaws hscope hs hsession).mono
    fun r t h => ⟨h.1, fun q hq c e hc he => h.2 q hq m c e hat.manifest hc he⟩

/-! ## Calls -/

variable {I : Disk → Prop}

/-- A program that is cut at once keeps everything. -/
theorem preserves_cut {p : PromoteProg α} {err : PromoteError} (h : p s = ⟨.error err, s, []⟩)
    (hs : I s) : Spec (· = s) p (fun _ => I) I := by
  refine ⟨?_, ?_⟩
  · rintro _ rfl
    rw [h]
    exact hs
  · rintro _ rfl t ht
    rw [h] at ht
    exact absurd ht not_mem_nil

theorem bind_manifestOf_none {g : Manifest → PromoteProg β}
    (h : ∀ dir, s.session = some dir → dir.manifest = none) :
    (readSession manifestOf >>= g) s = ⟨.error .noSession, s, []⟩ := by
  have hrun : (readSession manifestOf >>= g) s = Prog.bind (readSession manifestOf) g s := rfl
  have hread : readSession manifestOf s = ⟨.error .noSession, s, []⟩ := by
    rw [readSession, Prog.read]
    cases hsession : s.session with
    | none => rfl
    | some dir =>
      dsimp only
      rw [manifestOf, h dir hsession]
      rfl
  rw [hrun, Prog.bind, hread]

/-- There is a manifest, or a call ends at once. -/
theorem at_or_none (s : Disk) :
    (∃ dir m, At s dir m) ∨ ∀ dir, s.session = some dir → dir.manifest = none := by
  by_cases h : ∃ dir m, At s dir m
  · exact .inl h
  · refine .inr fun dir hdir => ?_
    cases hm : dir.manifest with
    | none => rfl
    | some m => exact absurd ⟨dir, m, hdir, hm⟩ h

theorem promote_evolves (hlaws : laws → Nonempty (Lawful codecs)) (hscope : scope ≠ .checks) :
    (promote codecs json env).Preserves (Evolves codecs.lib laws scope s₀) := by
  refine pointwise fun s hs => ?_
  rcases at_or_none s with ⟨dir, m, hat⟩ | hnone
  · exact promote_cases hs hat (fun _ _ h => h) (fun _ _ _ _ _ _ h => h) fun _ t ht hsession =>
      (publishAndRetire_record hlaws hscope ht hsession).mono fun _ _ h => h.1
  · exact preserves_cut (bind_manifestOf_none hnone) hs

/-- A program that starts with a look at the manifest. -/
theorem preserves_of_manifest {g : Manifest → PromoteProg α}
    (h : ∀ s dir m, At s dir m → I s → Spec (· = s) (g m) (fun _ => I) I) :
    (readSession manifestOf >>= g).Preserves I := by
  refine pointwise fun s hs => ?_
  rcases at_or_none s with ⟨dir, m, hat⟩ | hnone
  · refine bind_readSession (fun t ht => ht ▸ hat.session) (fun err _ t ht => ht ▸ hs)
      fun m' hm' => ?_
    obtain rfl : m = m' := some.inj (hat.manifest.symm.trans (okOr_eq_ok.mp hm'))
    exact h s dir m hat hs
  · exact preserves_cut (bind_manifestOf_none hnone) hs

inductive Call
  | claim (meetingId : String) (startedAtMs : ℕ)
  | encode (env : EncodeEnv)
  | publish
  | stamp (promotion : Promotion)
  | retire
  | promote (env : EncodeEnv)
  | sweep

section
variable (codecs : Codecs σ δ φ ρ) (json : Replay.Json)

def Call.program : Call → PromoteProg Unit
  | .claim meetingId startedAtMs => do let _ ← Promote.claim meetingId startedAtMs
  | .encode env => Promote.encode codecs env
  | .publish => do let _ ← Promote.publish codecs.lib
  | .stamp promotion => Promote.stamp promotion
  | .retire => Promote.retire codecs.lib json
  | .promote env => do let _ ← Promote.promote codecs json env
  | .sweep => sweepRetired

/-- The states a call passes through, and the one it leaves. -/
def Call.moments (call : Call) (s : Disk) : List Disk :=
  (call.program codecs json s).trace ++ [(call.program codecs json s).state]

end

theorem call_preserves (hlaws : laws → Nonempty (Lawful codecs)) (call : Call) :
    (call.program codecs json).Preserves (Evolves codecs.lib laws .any s₀) := by
  have hany : Scope.any ≠ .checks := by decide
  cases call with
  | claim meetingId startedAtMs =>
    refine .bind (preserves_of_manifest fun s dir m hat hs => ?_) fun _ => .pure
    exact seq (writeManifest_spec hat hs (Change.claimed rfl hat meetingId startedAtMs))
      (fun _ _ h => h.1) fun _ => pure fun _ h => h.1
  | encode env =>
    refine pointwise fun s hs => ?_
    rcases at_or_none s with ⟨dir, m, hat⟩ | hnone
    · exact (encode_spec hlaws hany hs hat.session).mono fun _ _ h => h.1
    · exact preserves_cut (bind_manifestOf_none hnone) hs
  | publish =>
    refine .bind (pointwise fun s hs => ?_) fun _ => .pure
    cases hsession : s.session with
    | none => exact preserves_cut (bind_readSession_none hsession) hs
    | some dir =>
      exact ((publish_spec hany).start (publishing_start hs hsession)).mono
        fun _ _ h => h.1.evolves
  | stamp promotion =>
    exact preserves_of_manifest fun s dir m hat hs =>
      (writeManifest_spec hat hs (Change.stamped rfl hat promotion)).mono fun _ _ h => h.1
  | retire =>
    refine pointwise fun s hs => ?_
    cases hsession : s.session with
    | none => exact preserves_cut (bind_readSession_none hsession) hs
    | some dir =>
      exact (retire_spec.start ⟨hs, hsession⟩).mono fun _ _ h => h.1
  | promote env => exact .bind (promote_evolves hlaws hany) fun _ => .pure
  | sweep => exact .step fun s hs => hs.tail (Change.swept s)

end

end FlyOnTheWall.Promote
