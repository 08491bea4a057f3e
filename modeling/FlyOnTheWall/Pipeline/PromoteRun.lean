/-
  Promotion over whole runs, with a crash after any step.

  * `Restart`: the process is gone, unsynced bytes may be lost.
  * `Reach`: any calls, each cut anywhere, with restarts between them.
  * `Safe`: the session directory is in place with what it has recorded, or the media tree holds
    every track; `Whole`: a finished name never holds a part of a track. `inv_reach` has both.
  * `Returning`: the record a promotion is going to return; `returning_retries` for one that is
    cut and run again, `fresh_promote` for one that has to encode first.
-/
import FlyOnTheWall.Pipeline.PromoteSteps

namespace FlyOnTheWall.Promote
open Lib Opus Wal List Option DurableFile

section
variable {σ δ φ ρ : Type} {lib : Libopus σ δ} {scope : Scope} {f : DurableFile}

/-! ## Restarts -/

/-- What a restart leaves of a name. -/
inductive NodeLoss : Option Node → Option Node → Prop
  | none : NodeLoss none none
  | other (n : ℕ) : NodeLoss (some (.other n)) (some (.other n))
  | file (f : DurableFile) (keep : ℕ) : NodeLoss (some (.file f)) (some (.file (f.crash keep)))

/-- Locks are released and taken, and the transcription goes on. -/
structure SessionLoss (dir dir' : SessionDir) : Prop where
  manifest_eq : dir'.manifest = dir.manifest
  generations_eq : dir'.archives.generations = dir.archives.generations
  pcm : ∀ leg, NodeLoss (dir.pcm leg) (dir'.pcm leg)
  files : ∀ place leg, NodeLoss (dir.archives.files place leg) (dir'.archives.files place leg)

structure Restart (s t : Disk) : Prop where
  session : (s.session = none ∧ t.session = none) ∨
    ∃ dir dir', s.session = some dir ∧ t.session = some dir' ∧ SessionLoss dir dir'
  retired : s.retired = none → t.retired = none
  entries_eq : t.media.entries = s.media.entries
  finished : ∀ path leg, NodeLoss (s.media.finished path leg) (t.media.finished path leg)

theorem crash_of_synced (h : f.synced = f.bytes.length) (keep : ℕ) : f.crash keep = f := by
  have hbytes : (f.crash keep).bytes = f.bytes :=
    take_of_length_le (by omega)
  cases f with
  | mk bytes synced synced_le fits =>
    simp only [crash, mk.injEq, and_true]
    exact hbytes

theorem sync_of_synced (h : f.synced = f.bytes.length) : f.sync = f := by
  cases f with
  | mk bytes synced synced_le fits =>
    simp only [sync, mk.injEq, true_and]
    exact h.symm

/-- A name whose bytes were all synced is not touched. -/
theorem NodeLoss.eq_of_synced {a b : Option Node} (h : NodeLoss a b)
    (hsynced : ∀ f, a = some (.file f) → f.synced = f.bytes.length) : b = a := by
  cases h with
  | none | other => rfl
  | file f keep => rw [crash_of_synced (hsynced f rfl)]

/-! ## The session or the media -/

/-- The files a promotion relies on have reached the disk. -/
structure Settled (dir : SessionDir) : Prop where
  pcm : ∀ leg f, dir.pcm leg = some (.file f) → f.synced = f.bytes.length
  archives : ∀ m e, dir.manifest = some m → m.encoded = some e → SettledArchives dir e

/-- The archives of a record, with the same bytes. -/
structure SameTracks (dir dir' : SessionDir) (e : EncodedSession) : Prop where
  generations_eq : dir'.archives.generations = dir.archives.generations
  files_iff : ∀ leg path bytes, archivePath dir.archives leg (e.of leg).file = .ok path →
    ((∃ f, dir'.archives.files path leg = some (.file f) ∧ f.bytes = bytes) ↔
      ∃ f, dir.archives.files path leg = some (.file f) ∧ f.bytes = bytes)

/-- A directory that holds what it held at the start. What was encoded since is verified if its
    raw leg can be. -/
structure Keeps (lib : Libopus σ δ) (dir₀ : SessionDir) (m₀ : Manifest) (dir : SessionDir)
    (m : Manifest) : Prop where
  pcm_eq : dir.pcm = dir₀.pcm
  rest : m = { m₀ with encoded := m.encoded, claim := m.claim, promoted := m.promoted }
  settled : Settled dir
  kept : ∀ e, m₀.encoded = some e → m.encoded = some e ∧ SameTracks dir₀ dir e
  gained : m₀.encoded = none → ∀ e, m.encoded = some e → ∀ leg,
    (e.of leg).pcmBytes = dir₀.rawLength leg ∧
      (Verifiable (m₀.trackFormats dir₀.pcm) dir₀ leg → SourceVerified lib dir m e leg)

section
variable (lib : Libopus σ δ) (dir₀ : SessionDir) (m₀ : Manifest)

/-- The media tree holds every track, at the content that belongs to the raw legs. -/
def MediaHolds (media : Media) : Prop :=
  ∃ e path, (∀ e₀, m₀.encoded = some e₀ → e = e₀) ∧
    (∀ leg node, dir₀.pcm leg = some node → (e.of leg).pcmBytes = node.len) ∧
    ∀ leg, TrackThere lib media path leg (e.of leg) ((m₀.trackFormats dir₀.pcm).of leg) ∧
      SyncedName media path leg

def Safe (s : Disk) : Prop :=
  (∃ dir m, At s dir m ∧ Keeps lib dir₀ m₀ dir m) ∨
    (s.session = none ∧ MediaHolds lib dir₀ m₀ s.media)

end

variable {dir₀ : SessionDir} {m₀ : Manifest} {dir : SessionDir} {m : Manifest}

theorem Keeps.trackFormats_eq (h : Keeps lib dir₀ m₀ dir m) :
    m.trackFormats dir.pcm = m₀.trackFormats dir₀.pcm := by
  rw [h.pcm_eq]
  have hfields : m.trackFormats dir₀.pcm =
      Manifest.trackFormats { m₀ with encoded := m.encoded } dir₀.pcm := by
    rw [h.rest]
    rfl
  rw [hfields]
  cases hencoded : m₀.encoded with
  | some e =>
    rw [(h.kept e hencoded).1, ← hencoded]
  | none =>
    cases hnew : m.encoded with
    | none => rw [← hencoded]
    | some e =>
      refine trackFormats_encoded (fun leg _ => by rw [hencoded]; rfl) fun leg => ?_
      exact (h.gained hencoded e hnew leg).1

theorem SameTracks.verified {m' : Manifest} {e : EncodedSession} {leg : Leg}
    {dir' : SessionDir} (h : SameTracks dir dir' e)
    (hformats : m'.trackFormats dir'.pcm = m.trackFormats dir.pcm)
    (hverified : SourceVerified lib dir m e leg) : SourceVerified lib dir' m' e leg := by
  obtain ⟨path, file, hpath, hfile, hcontent⟩ := verifyEncodedTrack_iff_content.mp hverified
  obtain ⟨file', hfile', hbytes⟩ := (h.files_iff leg path file.bytes hpath).mpr ⟨file, hfile, rfl⟩
  refine verifyEncodedTrack_iff_content.mpr ⟨path, file', ?_, hfile', ?_⟩
  · rw [archivePath_congr h.generations_eq]
    exact hpath
  · rw [hformats, hbytes]
    exact hcontent

theorem keeps_refl (hsettled : Settled dir₀) : Keeps lib dir₀ m₀ dir₀ m₀ where
  pcm_eq := rfl
  rest := rfl
  settled := hsettled
  kept _ he := ⟨he, rfl, fun _ _ _ _ => Iff.rfl⟩
  gained hnone _ he := absurd (hnone.symm.trans he) nofun

variable {s : Disk} {dir' : SessionDir}

theorem At.not_none (h : At s dir m) : ¬ s.session = none := by
  rw [h.session]
  exact nofun

variable {e : EncodedSession}

theorem settledArchives_syncSource (h : SettledArchives dir e) (leg : Leg) (track : EncodedTrack) :
    SettledArchives (syncSource leg track dir) e := by
  have hsame := sameSession_syncSource leg track dir
  intro l path file hpath hfile
  rw [archivePath_congr hsame.generations_eq] at hpath
  rw [syncSource] at hfile
  split at hfile
  · exact h l path file hpath hfile
  split at hfile
  · simp only [ArchiveDir.setFile] at hfile
    split at hfile
    · cases hfile
      rfl
    · exact h l path file hpath hfile
  · exact h l path file hpath hfile

section
variable (h : Keeps lib dir₀ m₀ dir m)
include h

/-- A new claim or a new stamp changes nothing that is kept. -/
theorem Keeps.setManifest (hm : dir.manifest = some m) (c : Option Claim) (p : Option Promotion) :
    Keeps lib dir₀ m₀ { dir with manifest := some { m with claim := c, promoted := p } }
      { m with claim := c, promoted := p } where
  pcm_eq := h.pcm_eq
  rest := by rw [h.rest]
  settled := ⟨h.settled.pcm, fun m' e hm' he => by
    obtain rfl := some.inj hm'
    exact h.settled.archives m e hm he⟩
  kept e he := ⟨(h.kept e he).1, (h.kept e he).2.generations_eq, (h.kept e he).2.files_iff⟩
  gained := h.gained

theorem Keeps.syncSource (leg : Leg) (track : EncodedTrack) :
    Keeps lib dir₀ m₀ (Promote.syncSource leg track dir) m := by
  have hsame := sameSession_syncSource leg track dir
  refine ⟨hsame.pcm_eq.trans h.pcm_eq, h.rest, ⟨?_, ?_⟩, fun e he => ⟨(h.kept e he).1, ?_, ?_⟩,
    fun hnone e he leg => ?_⟩
  · rw [hsame.pcm_eq]
    exact h.settled.pcm
  · intro m' e hm' he
    rw [hsame.manifest_eq] at hm'
    exact settledArchives_syncSource (h.settled.archives m' e hm' he) leg track
  · exact hsame.generations_eq.trans (h.kept e he).2.generations_eq
  · intro l path bytes hpath
    exact (hsame.files_iff path l bytes).trans ((h.kept e he).2.files_iff l path bytes hpath)
  · obtain ⟨hraw, hverified⟩ := h.gained hnone e he leg
    exact ⟨hraw, fun hleg => hsame.verified_iff.mpr (hverified hleg)⟩

/-- An encode that is not recorded yet is not one that was recorded at the start. -/
theorem Keeps.encoded_none (hnone : m.encoded = none) : m₀.encoded = none := by
  cases hencoded : m₀.encoded with
  | none => rfl
  | some e => exact absurd (hnone.symm.trans (h.kept e hencoded).1) nofun

end

theorem verifyRetainedPcm_eq (h : verifyRetainedPcm dir e = .ok ()) (leg : Leg) {node : Node}
    (hnode : dir.pcm leg = some node) : (e.of leg).pcmBytes = node.len := by
  obtain ⟨_, hsystem, hmic⟩ := bind_eq_ok.mp h
  have hleg : verifyRetainedLeg dir leg (e.of leg) = .ok () := by
    cases leg with
    | system => exact hsystem
    | mic => exact hmic
  rw [verifyRetainedLeg, hnode] at hleg
  dsimp only at hleg
  split at hleg
  · next hok =>
    simp only [Bool.and_eq_true, beq_iff_eq] at hok
    exact hok.2.symm
  · exact (error_ne_ok hleg).elim

variable {media : Media}

/-- Every finished name holds a complete track, on disk to its last byte, in directories that
    are there. -/
structure Whole (lib : Libopus σ δ) (media : Media) : Prop where
  track : ∀ path leg node, media.finished path leg = some node → ∃ file, node = .file file ∧
    file.synced = file.bytes.length ∧
    ∃ track format, ContentOk lib track (some format) file.bytes
  dirs : ∀ path leg node, media.finished path leg = some node →
    ∀ a ∈ ancestors path, media.entries a = some true

theorem Whole.synced (h : Whole lib media) (path : List Component) (leg : Leg) :
    SyncedName media path leg := by
  intro file hfile
  obtain ⟨file', hnode, hsynced, -⟩ := h.track path leg (.file file) hfile
  cases hnode
  exact hsynced

theorem whole_syncFinished (h : Whole lib media) (path : List Component) (leg : Leg) :
    media.syncFinished path leg = media := by
  rw [Media.syncFinished]
  split
  · next file hfile =>
    rw [sync_of_synced (h.synced path leg file hfile), Media.setFinished]
    congr 1
    funext p l
    split
    · next hhere =>
      rw [hhere.1, hhere.2, hfile]
    · rfl
  · rfl

variable {t : Disk}

theorem safe_change (h : Change lib True scope s t) (hwhole : Whole lib s.media)
    (hsafe : Safe lib dir₀ m₀ s) :
    Safe lib dir₀ m₀ t := by
  rcases hsafe with ⟨dir, m, hat, hkeeps⟩ | ⟨hgone, hholds⟩
  · cases h with
    | syncSource hat' leg track =>
      obtain ⟨rfl, rfl⟩ := hat.eq hat'
      exact .inl ⟨_, _, ⟨rfl, (sameSession_syncSource _ _ _).manifest_eq.trans hat.manifest⟩,
        hkeeps.syncSource leg track⟩
    | syncFinished | swept | mkdir | part | finish =>
      exact .inl ⟨dir, m, ⟨hat.session, hat.manifest⟩, hkeeps⟩
    | retire hat' hp he published synced raw =>
      obtain ⟨rfl, rfl⟩ := hat.eq hat'
      rename_i p e
      refine .inr ⟨rfl, e, components p.relDir, fun e0 he0 => ?_, fun leg node hnode => ?_,
        fun leg =>
        ⟨?_, synced leg⟩⟩
      · exact some.inj (he.symm.trans (hkeeps.kept e0 he0).1)
      · rw [← hkeeps.pcm_eq] at hnode
        exact verifyRetainedPcm_eq raw leg hnode
      · rw [← hkeeps.trackFormats_eq]
        exact published.there leg
    | encoding hscope hat' he archives =>
      obtain ⟨rfl, rfl⟩ := hat.eq hat'
      refine .inl ⟨_, _, ⟨rfl, hat.manifest⟩, hkeeps.pcm_eq, hkeeps.rest,
        ⟨hkeeps.settled.pcm, fun m' e hm' he' => ?_⟩, fun e he0 => ?_,
        fun _ e' he' => absurd (he.symm.trans he') nofun⟩
      · obtain rfl := mem_unique hat.manifest hm'
        exact absurd (he.symm.trans he') nofun
      · exact absurd ((hkeeps.encoded_none he).symm.trans he0) nofun
    | encoded hscope hat' he e raw settled verified =>
      obtain ⟨rfl, rfl⟩ := hat.eq hat'
      have hlength : ∀ leg, dir.rawLength leg = dir₀.rawLength leg := by
        intro leg
        rw [SessionDir.rawLength, SessionDir.rawLength, hkeeps.pcm_eq]
      have hnone := hkeeps.encoded_none he
      refine .inl ⟨_, _, ⟨rfl, rfl⟩, hkeeps.pcm_eq, by rw [hkeeps.rest],
        ⟨hkeeps.settled.pcm, fun m' e' hm' he' => ?_⟩, fun e he0 => ?_, fun _ e' he' leg => ?_⟩
      · obtain rfl := some.inj hm'
        obtain rfl := some.inj he'
        exact settled
      · exact absurd (hnone.symm.trans he0) nofun
      · obtain rfl := some.inj he'
        refine ⟨(raw leg).trans (hlength leg), fun hleg => verified trivial leg ?_⟩
        rw [Verifiable, hkeeps.trackFormats_eq, hlength]
        exact hleg
    | recorded _ hat' | claimed _ hat' | stamped _ hat' =>
      obtain ⟨rfl, rfl⟩ := hat.eq hat'
      exact .inl ⟨_, _, ⟨rfl, rfl⟩, hkeeps.setManifest hat.manifest _ _⟩
  · cases h with
    | syncFinished path leg =>
      rw [whole_syncFinished hwhole]
      exact .inr ⟨hgone, hholds⟩
    | swept | part => exact .inr ⟨hgone, hholds⟩
    | syncSource hat' | retire hat' | encoding _ hat' | encoded _ hat' | mkdir _ hat'
    | finish _ hat' | recorded _ hat' | claimed _ hat' | stamped _ hat' =>
      exact absurd hgone hat'.not_none

/-- A settled directory loses nothing that is kept. -/
theorem Keeps.restart (h : Keeps lib dir₀ m₀ dir m) (hm : dir.manifest = some m)
    (hloss : SessionLoss dir dir') : Keeps lib dir₀ m₀ dir' m := by
  have hpcm : dir'.pcm = dir.pcm := by
    funext leg
    exact (hloss.pcm leg).eq_of_synced (h.settled.pcm leg)
  have hfile : ∀ e, m.encoded = some e → ∀ leg path,
      archivePath dir.archives leg (e.of leg).file = .ok path →
        dir'.archives.files path leg = dir.archives.files path leg := by
    intro e he leg path hpath
    exact (hloss.files path leg).eq_of_synced fun f hf =>
      h.settled.archives m e hm he leg path f hpath hf
  refine ⟨hpcm.trans h.pcm_eq, h.rest, ⟨?_, ?_⟩, fun e he => ⟨(h.kept e he).1, ?_, ?_⟩,
    fun hnone e he leg => ?_⟩
  · rw [hpcm]
    exact h.settled.pcm
  · intro m' e hm' he leg path f hpath hf
    obtain rfl := some.inj ((hloss.manifest_eq.trans hm).symm.trans hm')
    rw [archivePath_congr hloss.generations_eq] at hpath
    rw [hfile e he leg path hpath] at hf
    exact h.settled.archives m e hm he leg path f hpath hf
  · exact hloss.generations_eq.trans (h.kept e he).2.generations_eq
  · intro leg path bytes hpath
    have hpath' : archivePath dir.archives leg (e.of leg).file = .ok path := by
      rw [archivePath_congr (h.kept e he).2.generations_eq]
      exact hpath
    rw [hfile e (h.kept e he).1 leg path hpath']
    exact (h.kept e he).2.files_iff leg path bytes hpath
  · obtain ⟨hraw, hverified⟩ := h.gained hnone e he leg
    have hsame : SameTracks dir dir' e := by
      refine ⟨hloss.generations_eq, fun l path bytes hpath => ?_⟩
      rw [hfile e he l path hpath]
    exact ⟨hraw, fun hleg => hsame.verified (by rw [hpcm]) (hverified hleg)⟩

theorem safe_restart (h : Restart s t) (hsafe : Safe lib dir₀ m₀ s) : Safe lib dir₀ m₀ t := by
  rcases hsafe with ⟨dir, m, hat, hkeeps⟩ | ⟨hgone, e, path, hsame, hraw, hall⟩
  · rcases h.session with ⟨hnone, -⟩ | ⟨d, dir', hd, hdir', hloss⟩
    · exact absurd hnone hat.not_none
    · obtain rfl : dir = d := mem_unique hat.session hd
      exact .inl ⟨dir', m, ⟨hdir', hloss.manifest_eq.trans hat.manifest⟩,
        hkeeps.restart hat.manifest hloss⟩
  · rcases h.session with ⟨-, hnone⟩ | ⟨d, dir', hd, -, -⟩
    · refine .inr ⟨hnone, e, path, hsame, hraw, fun leg => ?_⟩
      have hfinished : t.media.finished path leg = s.media.finished path leg :=
        (h.finished path leg).eq_of_synced (hall leg).2
      rw [TrackThere, SyncedName, hfinished]
      exact hall leg
    · exact absurd (hgone.symm.trans hd) nofun

/-! ## Finished names -/

variable {leg : Leg} {file : DurableFile}

theorem finishPart_finished {path : List Component}
    (h : media.parts path leg = some file) (p : List Component) (l : Leg) :
    (media.finishPart path leg).finished p l =
      if p = path ∧ l = leg then some (.file file) else media.finished p l := by
  rw [Media.finishPart, h]
  rfl

theorem finishPart_entries (media : Media) (path : List Component) (leg : Leg) :
    (media.finishPart path leg).entries = media.entries := by
  rw [Media.finishPart]
  split <;> rfl

/-- One step: a finished name is only ever given the bytes of a verified archive. -/
theorem whole_change (h : Change lib True scope s t) (hwhole : Whole lib s.media) :
    Whole lib t.media := by
  cases h with
  | syncFinished path leg =>
    rw [whole_syncFinished hwhole]
    exact hwhole
  | mkdir hscope hat hc path hpath hnone =>
    refine ⟨hwhole.track, fun p l node hnode a ha => ?_⟩
    show (if a = path then some true else s.media.entries a) = some true
    split
    · rfl
    · exact hwhole.dirs p l node hnode a ha
  | finish hscope hat hc he leg file dirs hpart synced verified content =>
    rename_i c e
    refine ⟨fun p l node hnode => ?_, fun p l node hnode a ha => ?_⟩
    · have hput : (s.media.finishPart (components c.relDir) leg).finished p l = some node := hnode
      rw [finishPart_finished hpart] at hput
      split at hput
      · exact ⟨file, (some.inj hput).symm, synced, _, _, content⟩
      · exact hwhole.track p l node hput
    · have hput : (s.media.finishPart (components c.relDir) leg).finished p l = some node := hnode
      show (s.media.finishPart (components c.relDir) leg).entries a = some true
      rw [finishPart_entries]
      rw [finishPart_finished hpart] at hput
      split at hput
      · next hhere =>
        rw [hhere.1] at ha
        exact dirs a ha
      · exact hwhole.dirs p l node hput a ha
  | part hscope path leg file => exact ⟨hwhole.track, hwhole.dirs⟩
  | swept | syncSource | retire | encoding | encoded | recorded | claimed | stamped => exact hwhole

theorem Restart.finished_eq (h : Restart s t) (hwhole : Whole lib s.media) :
    t.media.finished = s.media.finished := by
  funext path leg
  exact (h.finished path leg).eq_of_synced (hwhole.synced path leg)

theorem whole_restart (h : Restart s t) (hwhole : Whole lib s.media) : Whole lib t.media := by
  refine ⟨?_, ?_⟩
  · rw [h.finished_eq hwhole]
    exact hwhole.track
  · rw [h.finished_eq hwhole, h.entries_eq]
    exact hwhole.dirs

theorem gone_change (h : Change lib True scope s t) (hgone : s.session = none) :
    t.session = none := by
  cases h with
  | retire hat hp he published synced raw => rfl
  | swept | syncFinished | part | mkdir | finish => exact hgone
  | syncSource hat | encoding _ hat | encoded _ hat | recorded _ hat | claimed _ hat
  | stamped _ hat => exact absurd hgone hat.not_none

/-! ## The record of a promotion -/

variable {p : Promotion} {media' : Media} {m' : Manifest}

/-- What a promotion finds verified it finds verified again, if the legs are read the same way
    and the tracks are still there. -/
theorem Published.transfer (h : Published lib p m e dir media)
    (hformats : m'.trackFormats dir'.pcm = m.trackFormats dir.pcm)
    (hgenerations : dir'.archives.generations = dir.archives.generations)
    (hdirs : ∀ path ∈ ancestors (components p.relDir), media'.entries path = some true)
    (hthere : ∀ leg track format, TrackThere lib media (components p.relDir) leg track format →
      TrackThere lib media' (components p.relDir) leg track format) :
    Published lib p m' e dir' media' := by
  refine ⟨h.tracks_length, h.relDir_ne, h.normal, hdirs, fun leg => ⟨(h.named leg).listed, ?_⟩,
    fun leg => ?_⟩
  · rw [archivePath_congr hgenerations]
    exact (h.named leg).source
  · rw [hformats]
    exact hthere leg _ _ (h.there leg)

theorem Published.congr (hformats : m'.trackFormats dir'.pcm = m.trackFormats dir.pcm)
    (hgenerations : dir'.archives.generations = dir.archives.generations)
    (hentries : media'.entries = media.entries) (hfinished : media'.finished = media.finished) :
    Published lib p m' e dir' media' ↔ Published lib p m e dir media := by
  have hthere : ∀ path leg track format, TrackThere lib media' path leg track format ↔
      TrackThere lib media path leg track format := by
    intro path leg track format
    rw [TrackThere, TrackThere, hfinished]
  constructor
  · intro h
    refine h.transfer hformats.symm hgenerations.symm ?_ fun _ _ _ => (hthere _ _ _ _).mp
    rw [← hentries]
    exact h.dirs
  · intro h
    refine h.transfer hformats hgenerations ?_ fun _ _ _ => (hthere _ _ _ _).mpr
    rw [hentries]
    exact h.dirs

/-- The stamp of this state holds, and is `p`. -/
structure Stamped (lib : Libopus σ δ) (p : Promotion) (s : Disk) (dir : SessionDir)
    (m : Manifest) (e : EncodedSession) : Prop where
  at_ : At s dir m
  promoted : m.promoted = some p
  encoded : m.encoded = some e
  published : Published lib p m e dir s.media

/-- The next promotion of this state returns the record of the claim `c`. Another record may be
    stamped, but not one for the same media directory. -/
structure Claiming (lib : Libopus σ δ) (c : Claim) (e : EncodedSession) (s : Disk)
    (dir : SessionDir) (m : Manifest) : Prop where
  at_ : At s dir m
  claim : m.claim = some c
  encoded : m.encoded = some e
  same_dir : ∀ q, m.promoted = some q → components q.relDir = components c.relDir →
    q = recordOf c e
  published : ∀ q, m.promoted = some q → Published lib q m e dir s.media → q = recordOf c e

/-- What still counts as published counted before. -/
theorem Claiming.moved {c : Claim} (h : Claiming lib c e s dir m) (hat : At t dir' m)
    (hpub : ∀ q, Published lib q m e dir' t.media → Published lib q m e dir s.media) :
    Claiming lib c e t dir' m :=
  { h with at_ := hat, published := fun q hq h' => h.published q hq (hpub q h') }

theorem stamped_change (h : Change lib True .checks s t) (hwhole : Whole lib s.media)
    (hstamped : Stamped lib p s dir m e) : t.session = none ∨ ∃ dir', Stamped lib p t dir' m e := by
  cases h with
  | syncSource hat leg track =>
    obtain ⟨rfl, rfl⟩ := hstamped.at_.eq hat
    have hsame := sameSession_syncSource leg track dir
    refine .inr ⟨_, { hstamped with
      at_ := ⟨rfl, hsame.manifest_eq.trans hat.manifest⟩, published := ?_ }⟩
    exact (Published.congr (by rw [hsame.pcm_eq]) hsame.generations_eq rfl rfl).mpr
      hstamped.published
  | syncFinished path leg =>
    refine .inr ⟨dir, { hstamped with
      at_ := ⟨hstamped.at_.session, hstamped.at_.manifest⟩, published := ?_ }⟩
    rw [whole_syncFinished hwhole]
    exact hstamped.published
  | retire hat hp he published synced raw => exact .inl rfl
  | swept =>
    exact .inr ⟨dir, { hstamped with at_ := ⟨hstamped.at_.session, hstamped.at_.manifest⟩ }⟩
  | encoding hscope | encoded hscope | mkdir hscope | part hscope | finish hscope
  | recorded hscope => exact absurd rfl hscope
  | claimed hscope | stamped hscope => exact absurd hscope (by decide)

variable {c : Claim}

/-- Every step of a promotion keeps the record it is going to return. -/
theorem claiming_change (h : Change lib True .promotes s t) (hwhole : Whole lib s.media)
    (hclaiming : Claiming lib c e s dir m) :
    t.session = none ∨ ∃ dir' m', Claiming lib c e t dir' m' := by
  have hat := hclaiming.at_
  cases h with
  | syncSource hat' leg track =>
    obtain ⟨rfl, rfl⟩ := hat.eq hat'
    have hsame := sameSession_syncSource leg track dir
    exact .inr ⟨_, m, hclaiming.moved ⟨rfl, hsame.manifest_eq.trans hat.manifest⟩ fun q =>
      (Published.congr (by rw [hsame.pcm_eq]) hsame.generations_eq rfl rfl).mp⟩
  | syncFinished path leg =>
    refine .inr ⟨dir, m, hclaiming.moved ⟨hat.session, hat.manifest⟩ fun q hpub => ?_⟩
    have hmedia : Published lib q m e dir (s.media.syncFinished path leg) := hpub
    rw [whole_syncFinished hwhole] at hmedia
    exact hmedia
  | retire hat' hp he published synced raw => exact .inl rfl
  | swept =>
    exact .inr ⟨dir, m, { hclaiming with at_ := ⟨hat.session, hat.manifest⟩ }⟩
  | encoding _ hat' he | encoded _ hat' he =>
    obtain ⟨rfl, rfl⟩ := hat.eq hat'
    exact absurd (he.symm.trans hclaiming.encoded) nofun
  | mkdir hscope hat' hc path hpath hnone =>
    -- a track that is there is in directories that were there before
    refine .inr ⟨dir, m, hclaiming.moved ⟨hat.session, hat.manifest⟩ fun q hpub => ?_⟩
    obtain ⟨file, hfile, -⟩ := hpub.there .system
    exact hpub.transfer rfl rfl (fun a ha => hwhole.dirs _ _ _ hfile a ha) fun _ _ _ h => h
  | part hscope path leg file =>
    exact .inr ⟨dir, m, hclaiming.moved ⟨hat.session, hat.manifest⟩ fun q hpub =>
      hpub.transfer rfl rfl hpub.dirs fun _ _ _ h => h⟩
  | finish hscope hat' hc he leg file dirs hpart synced verified content =>
    obtain ⟨rfl, rfl⟩ := hat.eq hat'
    rename_i c' e'
    obtain rfl : c = c' := mem_unique hclaiming.claim hc
    refine .inr ⟨dir, m, { hclaiming with
      at_ := ⟨hat.session, hat.manifest⟩, published := fun q hq hpub => ?_ }⟩
    by_cases hdir : components q.relDir = components c.relDir
    · exact hclaiming.same_dir q hq hdir
    · have hfinished : ∀ l, (s.media.finishPart (components c.relDir) leg).finished
          (components q.relDir) l = s.media.finished (components q.relDir) l := by
        intro l
        rw [finishPart_finished hpart, if_neg fun h => hdir h.1]
      refine hclaiming.published q hq (hpub.transfer rfl rfl (fun a ha => ?_) ?_)
      · have hentry : (s.media.finishPart (components c.relDir) leg).entries a = some true :=
          hpub.dirs a ha
        rw [finishPart_entries] at hentry
        exact hentry
      · rintro l track format ⟨f, hf, hcontent⟩
        have hput : (s.media.finishPart (components c.relDir) leg).finished
          (components q.relDir) l = some (.file f) := hf
        rw [hfinished] at hput
        exact ⟨f, hput, hcontent⟩
  | recorded hscope hat' hc he =>
    obtain ⟨rfl, rfl⟩ := hat.eq hat'
    rename_i c' e'
    obtain rfl : c = c' := mem_unique hclaiming.claim hc
    obtain rfl : e = e' := mem_unique hclaiming.encoded he
    refine .inr ⟨_, _, ⟨rfl, rfl⟩, hclaiming.claim, hclaiming.encoded, fun q hq _ => ?_,
      fun q hq _ => ?_⟩
    · exact (some.inj hq).symm
    · exact (some.inj hq).symm
  | claimed hscope | stamped hscope => exact absurd hscope (by decide)

/-! ## Runs -/

/-- What holds in every state of a run. -/
structure Inv (lib : Libopus σ δ) (dir₀ : SessionDir) (m₀ : Manifest) (s : Disk) : Prop where
  safe : Safe lib dir₀ m₀ s
  whole : Whole lib s.media
  leftover : s.session ≠ none → s.retired = none

theorem Inv.settled (h : Inv lib dir₀ m₀ s) (hat : At s dir m) : Settled dir := by
  rcases h.safe with ⟨dir', m', hat', hkeeps⟩ | ⟨hgone, -⟩
  · obtain ⟨rfl, rfl⟩ := hat.eq hat'
    exact hkeeps.settled
  · exact absurd hgone hat.not_none

theorem leftover_change (h : Change lib True scope s t) (hs : s.session ≠ none → s.retired = none) :
    t.session ≠ none → t.retired = none := by
  cases h with
  | retire hat hp he published synced raw => exact fun h => absurd rfl h
  | swept => exact fun _ => rfl
  | syncFinished | part | mkdir | finish => exact hs
  | syncSource hat | encoding _ hat | encoded _ hat | recorded _ hat | claimed _ hat
  | stamped _ hat => exact fun _ => hs hat.not_none

theorem inv_change (h : Change lib True scope s t) (hs : Inv lib dir₀ m₀ s) : Inv lib dir₀ m₀ t :=
  ⟨safe_change h hs.whole hs.safe, whole_change h hs.whole, leftover_change h hs.leftover⟩

theorem inv_restart (h : Restart s t) (hs : Inv lib dir₀ m₀ s) : Inv lib dir₀ m₀ t := by
  refine ⟨safe_restart h hs.safe, whole_restart h hs.whole, fun hsome => ?_⟩
  rcases h.session with ⟨-, hnone⟩ | ⟨dir, dir', hdir, -, -⟩
  · exact absurd hnone hsome
  · exact h.retired (hs.leftover (by rw [hdir]; exact nofun))

/-- Any calls, each cut after any of its steps, with restarts between them. -/
inductive Reach (codecs : Codecs σ δ φ ρ) (json : Replay.Json) (start : Disk) : Disk → Prop
  | start : Reach codecs json start start
  | call {s t : Disk} (h : Reach codecs json start s) (call : Call)
      (ht : t ∈ call.moments codecs json s) : Reach codecs json start t
  | restart {s t : Disk} (h : Reach codecs json start s) (hr : Restart s t) :
      Reach codecs json start t

variable {codecs : Codecs σ δ φ ρ} {json : Replay.Json} {I : Disk → Prop}

theorem of_mem_moments {call : Call} (h : Spec (· = s) (call.program codecs json) (fun _ => I) I)
    (ht : t ∈ call.moments codecs json s) : I t := by
  rcases mem_append.mp ht with ht | ht
  · exact h.crash s rfl t ht
  · rw [mem_singleton.mp ht]
    exact h.post s rfl

theorem inv_reach (laws : Lawful codecs) {start : Disk} (hstart : Inv codecs.lib dir₀ m₀ start)
    (h : Reach codecs json start s) : Inv codecs.lib dir₀ m₀ s := by
  induction h with
  | start => exact hstart
  | call hreach call ht ih =>
    rename_i s t
    have hevolves : Evolves codecs.lib True .any s t :=
      of_mem_moments ((call_preserves (fun _ => ⟨laws⟩) call).start .refl) ht
    exact evolves_invariant hevolves ih fun _ _ => inv_change
  | restart _ hr ih => exact inv_restart hr ih

/-! ## Promotion, cut and run again -/

/-- A promotion from here returns `p` if it returns. -/
def Returning (lib : Libopus σ δ) (p : Promotion) (s : Disk) : Prop :=
  s.session = none ∨ (∃ dir m e, Stamped lib p s dir m e) ∨
    ∃ c e dir m, p = recordOf c e ∧ Claiming lib c e s dir m

/-- What every step keeps as long as the directory is there. -/
theorem gone_or_evolves {P : Disk → Prop} (hstep : ∀ s t, Change lib True scope s t →
      Whole lib s.media → P s → t.session = none ∨ P t)
    (h : Evolves lib True scope s t) (hwhole : Whole lib s.media) (hs : P s) :
    t.session = none ∨ P t := by
  have hboth : Whole lib t.media ∧ (t.session = none ∨ P t) := by
    induction h with
    | refl => exact ⟨hwhole, .inr hs⟩
    | tail _ hchange ih =>
      refine ⟨whole_change hchange ih.1, ?_⟩
      rcases ih.2 with hgone | hkept
      · exact .inl (gone_change hchange hgone)
      · exact hstep _ _ hchange ih.1 hkept
  exact hboth.2

theorem promote_moments {env : EncodeEnv}
    (h : Spec (· = s) (promote codecs json env) (fun r t => I t ∧ ∀ q, r = .ok q → q = p) I) :
    (∀ q after, (promote codecs json env).Returns s q after → q = p) ∧
      ∀ t ∈ (Call.promote env).moments codecs json s, I t := by
  refine ⟨fun q after hreturns => (h.post s rfl).2 q hreturns.1, fun t ht => ?_⟩
  have hcall : Spec (· = s) ((Call.promote env).program codecs json) (fun _ => I) I :=
    Spec.seq h (fun _ _ h => h.1) fun _ => Spec.pure fun _ h => h.1
  exact of_mem_moments hcall ht

theorem promote_gone (codecs : Codecs σ δ φ ρ) (json : Replay.Json) (env : EncodeEnv)
    (hgone : s.session = none) : promote codecs json env s = ⟨.error .noSession, s, []⟩ :=
  bind_manifestOf_none fun _ hdir => absurd (hgone.symm.trans hdir) nofun

theorem returning_promote (laws : Lawful codecs) (json : Replay.Json)
    (hwhole : Whole codecs.lib s.media)
    (hs : Returning codecs.lib p s) (env : EncodeEnv) :
    (∀ q after, (promote codecs json env).Returns s q after → q = p) ∧
      ∀ t ∈ (Call.promote env).moments codecs json s, Returning codecs.lib p t := by
  have hstampedCase : ∀ dir m e, Stamped codecs.lib p s dir m e →
      (∀ q after, (promote codecs json env).Returns s q after → q = p) ∧
        ∀ t ∈ (Call.promote env).moments codecs json s, Returning codecs.lib p t := by
    intro dir m e hstamped
    have hevolved : ∀ t, Evolves codecs.lib True .checks s t → Returning codecs.lib p t := by
      intro t ht
      have hkept := gone_or_evolves (P := fun t => ∃ dir, Stamped codecs.lib p t dir m e)
        (fun _ _ hchange hwhole ⟨_, h⟩ => stamped_change hchange hwhole h) ht hwhole
        ⟨dir, hstamped⟩
      exact hkept.imp_right fun ⟨dir, h⟩ => .inl ⟨dir, m, e, h⟩
    exact promote_moments
      ((promote_intact (.refl : Evolves codecs.lib True .checks s s) hstamped.at_
      hstamped.promoted hstamped.encoded hstamped.published).conseq (fun _ h => h)
      (fun r t h => ⟨hevolved t h.1, h.2⟩) hevolved)
  rcases hs with hgone | ⟨dir, m, e, hstamped⟩ | ⟨c, e, dir, m, rfl, hclaiming⟩
  · have hrun := promote_gone codecs json env hgone
    refine promote_moments ⟨?_, ?_⟩
    · rintro _ rfl
      rw [hrun]
      exact ⟨.inl hgone, nofun⟩
    · rintro _ rfl t ht
      rw [hrun] at ht
      exact absurd ht not_mem_nil
  · exact hstampedCase dir m e hstamped
  · by_cases hpub : ∃ q, m.promoted = some q ∧ Published codecs.lib q m e dir s.media
    · obtain ⟨q, hq, hpublished⟩ := hpub
      have hrecord := hclaiming.published q hq hpublished
      rw [hrecord] at hq hpublished
      exact hstampedCase dir m e ⟨hclaiming.at_, hq, hclaiming.encoded, hpublished⟩
    · have hnot : ∀ q e', m.promoted = some q → m.encoded = some e' →
          ¬ Published codecs.lib q m e' dir s.media := by
        intro q e' hq he' hpublished
        obtain rfl : e = e' := mem_unique hclaiming.encoded he'
        exact hpub ⟨q, hq, hpublished⟩
      have hevolved : ∀ t, Evolves codecs.lib True .promotes s t →
          Returning codecs.lib (recordOf c e) t := by
        intro t ht
        have hkept := gone_or_evolves (P := fun t => ∃ dir m, Claiming codecs.lib c e t dir m)
          (fun _ _ hchange hwhole ⟨_, _, h⟩ => claiming_change hchange hwhole h) ht hwhole
          ⟨dir, m, hclaiming⟩
        exact hkept.imp_right fun ⟨dir', m', h⟩ => .inr ⟨c, e, dir', m', rfl, h⟩
      refine promote_moments ((promote_again (fun _ => ⟨laws⟩) (by decide)
        (.refl : Evolves codecs.lib True .promotes s s) hclaiming.at_ hnot).conseq (fun _ h => h)
        (fun r t h => ⟨hevolved t h.1, fun q hq => ?_⟩) hevolved)
      exact h.2 q hq c e hclaiming.claim hclaiming.encoded

section
variable (h : Restart s t)
include h

theorem Restart.gone (hgone : s.session = none) : t.session = none := by
  rcases h.session with ⟨-, hnone⟩ | ⟨d, dir', hd, -, -⟩
  · exact hnone
  · exact absurd (hgone.symm.trans hd) nofun

theorem Restart.at_ (hat : At s dir m) : ∃ dir', At t dir' m ∧ SessionLoss dir dir' := by
  rcases h.session with ⟨hnone, -⟩ | ⟨d, dir', hd, hdir', hloss⟩
  · exact absurd hnone hat.not_none
  · obtain rfl : dir = d := mem_unique hat.session hd
    exact ⟨dir', ⟨hdir', hloss.manifest_eq.trans hat.manifest⟩, hloss⟩

/-- What is published is the same before and after. -/
theorem Restart.published_iff (hwhole : Whole lib s.media) (hset : Settled dir)
    (hloss : SessionLoss dir dir') (q : Promotion) :
    Published lib q m e dir' t.media ↔ Published lib q m e dir s.media := by
  have hpcm : dir'.pcm = dir.pcm := by
    funext leg
    exact (hloss.pcm leg).eq_of_synced (hset.pcm leg)
  exact Published.congr (by rw [hpcm]) hloss.generations_eq h.entries_eq (h.finished_eq hwhole)

theorem claiming_restart (hwhole : Whole lib s.media) (hset : Settled dir)
    (hs : Claiming lib c e s dir m) : ∃ dir', Claiming lib c e t dir' m := by
  obtain ⟨dir', hat', hloss⟩ := h.at_ hs.at_
  exact ⟨dir', hs.moved hat' fun q => (h.published_iff hwhole hset hloss q).mp⟩

theorem returning_restart (hwhole : Whole lib s.media)
    (hsettled : ∀ dir m, At s dir m → Settled dir) (hs : Returning lib p s) :
    Returning lib p t := by
  rcases hs with hgone | ⟨dir, m, e, hstamped⟩ | ⟨c, e, dir, m, rfl, hclaiming⟩
  · exact .inl (h.gone hgone)
  · obtain ⟨dir', hat', hloss⟩ := h.at_ hstamped.at_
    exact .inr (.inl ⟨dir', m, e, { hstamped with
      at_ := hat'
      published := (h.published_iff hwhole (hsettled dir m hstamped.at_) hloss p).mpr
        hstamped.published }⟩)
  · obtain ⟨dir', hkept⟩ := claiming_restart h hwhole (hsettled dir m hclaiming.at_) hclaiming
    exact .inr (.inr ⟨c, e, dir', m, rfl, hkept⟩)

end

/-- A promotion that is cut and run again, any number of times. -/
inductive Retries (codecs : Codecs σ δ φ ρ) (json : Replay.Json) (start : Disk) : Disk → Prop
  | start : Retries codecs json start start
  | again {s t : Disk} (h : Retries codecs json start s) (env : EncodeEnv)
      (ht : t ∈ (Call.promote env).moments codecs json s) : Retries codecs json start t
  | restart {s t : Disk} (h : Retries codecs json start s) (hr : Restart s t) :
      Retries codecs json start t

theorem returning_retries (laws : Lawful codecs) {u : Disk} (hinv : Inv codecs.lib dir₀ m₀ s)
    (hs : Returning codecs.lib p s) (h : Retries codecs json s u) :
    Inv codecs.lib dir₀ m₀ u ∧ Returning codecs.lib p u := by
  induction h with
  | start => exact ⟨hinv, hs⟩
  | again hreach env ht ih =>
    exact ⟨inv_reach laws ih.1 (.call .start (.promote env) ht),
      (returning_promote laws json ih.1.whole ih.2 env).2 _ ht⟩
  | restart hreach hr ih =>
    exact ⟨inv_restart hr ih.1, returning_restart hr ih.1.whole (fun _ _ hat => ih.1.settled hat)
      ih.2⟩

/-! ## A promotion that has to encode first -/

/-- The session is claimed, and there is neither an encode nor a stamp. -/
structure Fresh (c : Claim) (s : Disk) (dir : SessionDir) (m : Manifest) : Prop where
  at_ : At s dir m
  claim : m.claim = some c
  encoded : m.encoded = none
  promoted : m.promoted = none

/-- Claimed, and encoded or not. -/
def Pending (lib : Libopus σ δ) (c : Claim) (s : Disk) : Prop :=
  (∃ dir m, Fresh c s dir m) ∨ ∃ e dir m, Claiming lib c e s dir m

theorem fresh_change (h : Change lib True .promotes s t) (hfresh : Fresh c s dir m) :
    t.session = none ∨ Pending lib c t := by
  have hat := hfresh.at_
  cases h with
  | syncSource hat' leg track =>
    obtain ⟨rfl, rfl⟩ := hat.eq hat'
    have hmanifest := (sameSession_syncSource leg track dir).manifest_eq.trans hat.manifest
    exact .inr (.inl ⟨_, m, { hfresh with at_ := ⟨rfl, hmanifest⟩ }⟩)
  | syncFinished | swept | mkdir | part =>
    exact .inr (.inl ⟨dir, m, { hfresh with at_ := ⟨hat.session, hat.manifest⟩ }⟩)
  | encoding _ hat' =>
    obtain ⟨rfl, rfl⟩ := hat.eq hat'
    exact .inr (.inl ⟨_, m, { hfresh with at_ := ⟨rfl, hat.manifest⟩ }⟩)
  | encoded _ hat' _ e =>
    obtain ⟨rfl, rfl⟩ := hat.eq hat'
    refine .inr (.inr ⟨e, _, _, ⟨rfl, rfl⟩, hfresh.claim, rfl, fun q hq => ?_, fun q hq => ?_⟩)
    · exact absurd (hfresh.promoted.symm.trans hq) nofun
    · exact absurd (hfresh.promoted.symm.trans hq) nofun
  | retire => exact .inl rfl
  | finish _ hat' _ he | recorded _ hat' _ he =>
    obtain ⟨rfl, rfl⟩ := hat.eq hat'
    exact absurd (hfresh.encoded.symm.trans he) nofun
  | claimed hscope | stamped hscope => exact absurd hscope (by decide)

theorem pending_change (h : Change lib True .promotes s t) (hwhole : Whole lib s.media)
    (hs : Pending lib c s) : t.session = none ∨ Pending lib c t := by
  rcases hs with ⟨dir, m, hfresh⟩ | ⟨e, dir, m, hclaiming⟩
  · exact fresh_change h hfresh
  · exact (claiming_change h hwhole hclaiming).imp_right fun ⟨dir', m', h'⟩ =>
      .inr ⟨e, dir', m', h'⟩

/-- What such a promotion returns is the record of the claim and of the tracks that are recorded
    by then, and it is returned from then on. -/
theorem fresh_promote (laws : Lawful codecs) {env : EncodeEnv} {q : Promotion} {after : Disk}
    (hwhole : Whole codecs.lib s.media) (hfresh : Fresh c s dir m)
    (hreturns : (promote codecs json env).Returns s q after) :
    Returning codecs.lib q after ∧ ∃ e, q = recordOf c e ∧
      ∀ dir' m', At after dir' m' → m'.encoded = some e := by
  have hspec : Spec (· = s) (promote codecs json env) (fun r u => ∀ q, r = .ok q →
      Returning codecs.lib q u ∧ ∃ e, q = recordOf c e ∧
        ∀ dir' m', At u dir' m' → m'.encoded = some e) (Evolves codecs.lib True .promotes s) := by
    refine promote_cases .refl hfresh.at_ (fun _ _ _ => nofun)
      (fun p e hp => absurd (hfresh.promoted.symm.trans hp) nofun) fun _ t ht hsession => ?_
    refine (publishAndRetire_record (fun _ => ⟨laws⟩) (by decide) ht hsession).mono
      fun r u h q hq => ?_
    obtain ⟨v, dir', m', c', e, hsv, hvu, hat', hc', he, rfl, -⟩ := h.2 q hq
    have hwhole' : Whole codecs.lib v.media :=
      evolves_invariant hsv hwhole fun _ _ => whole_change
    -- at `v` the tracks are recorded
    have hclaiming : Claiming codecs.lib c e v dir' m' ∧ c' = c := by
      rcases gone_or_evolves (fun _ _ => pending_change) hsv hwhole (.inl ⟨dir, m, hfresh⟩) with
        hgone | ⟨d, m1, hf⟩ | ⟨e1, d, m1, hc1⟩
      · exact absurd hgone hat'.not_none
      · obtain ⟨rfl, rfl⟩ := hat'.eq hf.at_
        exact absurd (hf.encoded.symm.trans he) nofun
      · obtain ⟨rfl, rfl⟩ := hat'.eq hc1.at_
        obtain rfl : e1 = e := mem_unique hc1.encoded he
        exact ⟨hc1, mem_unique hc' hc1.claim⟩
    obtain ⟨hclaiming, rfl⟩ := hclaiming
    rcases gone_or_evolves (P := fun u => ∃ d m1, Claiming codecs.lib c' e u d m1)
      (fun _ _ hchange hw ⟨_, _, h⟩ => claiming_change hchange hw h) hvu hwhole'
      ⟨dir', m', hclaiming⟩ with hgone | ⟨d, m1, hkept⟩
    · exact ⟨.inl hgone, e, rfl, fun d m1 hat => absurd hgone hat.not_none⟩
    · refine ⟨.inr (.inr ⟨c', e, d, m1, rfl, hkept⟩), e, rfl, fun d' m2 hat => ?_⟩
      obtain ⟨rfl, rfl⟩ := hat.eq hkept.at_
      exact hkept.encoded
  rw [← hreturns.2]
  exact hspec.post s rfl q hreturns.1

/-- Restarts and cuts keep a session pending, until it is gone. -/
theorem pending_retries (laws : Lawful codecs) {u : Disk} (hinv : Inv codecs.lib dir₀ m₀ s)
    (hs : Pending codecs.lib c s) (h : Retries codecs json s u) :
    Inv codecs.lib dir₀ m₀ u ∧ (u.session = none ∨ Pending codecs.lib c u) := by
  induction h with
  | start => exact ⟨hinv, .inr hs⟩
  | again hreach env ht ih =>
    refine ⟨inv_reach laws ih.1 (.call .start (.promote env) ht), ?_⟩
    have hevolves : Evolves codecs.lib True .promotes _ _ :=
      of_mem_moments ((Prog.Preserves.bind (promote_evolves (fun _ => ⟨laws⟩) (by decide))
        fun _ => .pure).start .refl) ht
    rcases ih.2 with hgone | hpending
    · exact .inl (evolves_invariant hevolves hgone fun _ _ => gone_change)
    · exact gone_or_evolves (fun _ _ => pending_change) hevolves ih.1.whole hpending
  | restart hreach hr ih =>
    refine ⟨inv_restart hr ih.1, ?_⟩
    rcases ih.2 with hgone | ⟨dir, m, hfresh⟩ | ⟨e, dir, m, hclaiming⟩
    · exact .inl (hr.gone hgone)
    · obtain ⟨dir', hat', -⟩ := hr.at_ hfresh.at_
      exact .inr (.inl ⟨dir', m, { hfresh with at_ := hat' }⟩)
    · obtain ⟨dir', hkept⟩ :=
        claiming_restart hr ih.1.whole (ih.1.settled hclaiming.at_) hclaiming
      exact .inr (.inr ⟨e, dir', m, hkept⟩)

/-! ## A promotion that nothing stands in the way of -/

theorem returns_readSession {α : Type} {f : SessionDir → Except PromoteError α} {a : α}
    (hsession : s.session = some dir) (h : f dir = .ok a) : (readSession f).Returns s a s := by
  refine .read ?_
  rw [hsession]
  exact h

theorem returns_changeMedia (f : Media → Media) (s : Disk) :
    (changeMedia f).Returns s () (setMedia s (f s.media)) := .step rfl

theorem syncSource_of_settled (h : SettledArchives dir e) (leg : Leg) :
    syncSource leg (e.of leg) dir = dir := by
  rw [syncSource]
  split
  · rfl
  rename_i path hpath
  split
  · next file hfile =>
    have hset : dir.archives.setFile path leg (some (.file file.sync)) = dir.archives := by
      rw [sync_of_synced (h leg path file hpath hfile), ArchiveDir.setFile]
      have hfiles : (fun p l => if p = path ∧ l = leg then some (.file file)
          else dir.archives.files p l) = dir.archives.files := by
        funext p l
        split
        · next hhere =>
          rw [hhere.1, hhere.2, hfile]
        · rfl
      rw [hfiles]
    rw [hset]
  · rfl

theorem verifySource_returns (hat : At s dir m) (hsettled : SettledArchives dir e)
    (hverified : SourceVerified lib dir m e leg) : (verifySource lib m e leg).Returns s () s := by
  refine (returns_readSession hat.session (io_eq_ok.mpr hverified)).bind
    (.step ?_)
  rw [hat.session, map_some, syncSource_of_settled hsettled, ← hat.session]

theorem verifyPublished_returns (hat : At s dir m) (hwhole : Whole lib s.media)
    (hpub : Published lib p m e dir s.media) (leg : Leg) :
    (verifyPublished lib p m e leg).Returns s () s := by
  refine .bind (.check ?_) (.step ?_)
  · rw [hat.session]
    exact checkPublished_iff.mpr ⟨hpub.named leg, hpub.there leg⟩
  · show setMedia s (s.media.syncFinished (components p.relDir) leg) = s
    rw [whole_syncFinished hwhole]
    rfl

theorem verify_returns (hat : At s dir m) (hwhole : Whole lib s.media) (he : m.encoded = some e)
    (hpub : Published lib p m e dir s.media) : (verify lib p m).Returns s () s := by
  refine .bind (.read (okOr_eq_ok.mpr he)) (.bind (.check (refuseIf_eq_ok.mpr ?_))
    (.bind (.check (refuseIf_eq_ok.mpr ?_)) (.bind (verifyPublished_returns hat hwhole hpub .system)
    (verifyPublished_returns hat hwhole hpub .mic))))
  · rw [hpub.tracks_length, hpub.relDir_ne, hpub.normal]
    rfl
  · rw [Bool.not_eq_false', List.all_eq_true]
    exact fun path hpath => beq_iff_eq.mpr (hpub.dirs path hpath)

theorem createDirs_returns (paths : List (List Component))
    (hfree : ∀ path ∈ paths, s.media.entries path ≠ some false) :
    ∃ media, (createDirs paths).Returns s () (setMedia s media) ∧
      media.finished = s.media.finished ∧ (∀ path ∈ paths, media.entries path = some true) ∧
      ∀ path, s.media.entries path = some true → media.entries path = some true := by
  induction paths generalizing s with
  | nil =>
    exact ⟨s.media, .pure, rfl, forall_mem_nil _, fun _ h => h⟩
  | cons path paths ih =>
    have hrest := fun p hp => hfree p (mem_cons_of_mem path hp)
    cases hentry : s.media.entries path with
    | some b =>
      obtain rfl : b = true := by
        cases b with
        | true => rfl
        | false => exact absurd hentry (hfree path mem_cons_self)
      obtain ⟨media, hreturns, hfinished, hall, hold⟩ := ih hrest
      refine ⟨media, ?_, hfinished, ?_, hold⟩
      · refine .bind (a := some true) (.read ?_) hreturns
        rw [hentry]
      · intro p hp
        rcases mem_cons.mp hp with rfl | hp
        · exact hold p hentry
        · exact hall p hp
    | none =>
      let made : Media := { s.media with
        entries := fun p => if p = path then some true else s.media.entries p }
      have hmade : ∀ p ∈ paths, (setMedia s made).media.entries p ≠ some false := by
        intro p hp
        show (if p = path then some true else s.media.entries p) ≠ some false
        split
        · exact nofun
        · exact hrest p hp
      obtain ⟨media, hreturns, hfinished, hall, hold⟩ := ih hmade
      refine ⟨media, ?_, hfinished, ?_, fun p hp => hold p ?_⟩
      · refine .bind (a := none) (.read ?_) ((returns_changeMedia _ s).bind hreturns)
        rw [hentry]
      · intro p hp
        rcases mem_cons.mp hp with rfl | hp
        · exact hold p (if_pos rfl)
        · exact hall p hp
      · show (if p = path then some true else s.media.entries p) = some true
        split
        · rfl
        · exact hp

theorem publishOne_returns (s : Disk) (dest : List Component) (relDir : String) (leg : Leg)
    (track : EncodedTrack) (hsession : s.session = some dir)
    (hsource : sourceFile dir leg track = .ok file)
    (hfree : (s.media.finished dest leg).any (!·.isFile) = false) :
    ∃ media copy t, (publishOne dest relDir leg track).Returns s t (setMedia s media) ∧
      media.entries = s.media.entries ∧ copy.bytes = file.bytes ∧
      ∀ p l, media.finished p l =
        if p = dest ∧ l = leg then some (.file copy) else s.media.finished p l := by
  let written := empty.writeAll file.bytes none
  have hroom : written.2 = true := by
    refine decide_eq_true ?_
    show 0 + file.bytes.length ≤ maxFileBytes
    rw [zero_add]
    exact file.fits
  let synced := ((s.media.setPart dest leg .empty).setPart dest leg written.1).setPart dest leg
    written.1.sync
  refine ⟨synced.finishPart dest leg, written.1.sync, _,
    (returns_readSession hsession (io_eq_ok.mpr hsource)).bind <| (returns_changeMedia _ _).bind <|
    (returns_changeMedia _ _).bind <| .bind (.check (refuseIf_eq_ok.mpr ?_)) <|
    (returns_changeMedia _ _).bind <| .bind (.check (refuseIf_eq_ok.mpr hfree)) <|
    (returns_changeMedia _ _).bind .pure, ?_, ?_, fun p l => ?_⟩
  · exact (congrArg (!·) hroom).trans rfl
  · rw [finishPart_entries]
    rfl
  · exact (writeAll_complete hroom).1
  · exact finishPart_finished (setPart_self _ _ _ _) p l

/-- What a promotion needs to get through. -/
structure Unobstructed (lib : Libopus σ δ) (s : Disk) (dir : SessionDir) (m : Manifest)
    (c : Claim) (e : EncodedSession) : Prop where
  at_ : At s dir m
  claim : m.claim = some c
  encoded : m.encoded = some e
  ended : m.endedAtMs.isNone = false
  owner : archiveOwner dir = .ok ()
  sources : ∀ leg, SourceVerified lib dir m e leg
  raw : verifyRetainedPcm dir e = .ok ()
  relDir_ne : c.relDir.isEmpty = false
  normal : (components c.relDir).all Component.isNormal = true
  free : ∀ path ∈ ancestors (components c.relDir), s.media.entries path ≠ some false

theorem Unobstructed.manifest (h : Unobstructed lib s dir m c e) :
    (readSession manifestOf).Returns s m s :=
  returns_readSession h.at_.session (okOr_eq_ok.mpr h.at_.manifest)

theorem Unobstructed.ready (h : Unobstructed lib s dir m c e) :
    (Prog.read fun _ => readyClaim m : PromoteProg Claim).Returns s c s := by
  refine .read ?_
  rw [readyClaim, h.ended, refuseIf_false, ok_bind, h.claim]
  rfl

theorem Whole.not_other (h : Whole lib media) (path : List Component) (leg : Leg) :
    (media.finished path leg).any (!·.isFile) = false := by
  cases hnode : media.finished path leg with
  | none => rfl
  | some node =>
    obtain ⟨file, rfl, -⟩ := h.track path leg node hnode
    rfl

/-- The tracks of both legs, published one after the other. -/
theorem publish_returns (h : Unobstructed lib s dir m c e) (hwhole : Whole lib s.media)
    (hsettled : SettledArchives dir e) :
    ∃ media q, (publish lib).Returns s q (setMedia s media) ∧
      Published lib (recordOf c e) m e dir media := by
  obtain ⟨made, hmade, hfinished, hdirs, -⟩ := createDirs_returns _ h.free
  obtain ⟨sysFile, hsysSource, hsysContent⟩ := (h.sources .system).sourceFile
  obtain ⟨micFile, hmicSource, hmicContent⟩ := (h.sources .mic).sourceFile
  have hfree : ∀ leg, (made.finished (components c.relDir) leg).any (!·.isFile) = false := by
    intro leg
    rw [hfinished]
    exact hwhole.not_other _ leg
  obtain ⟨m1, copy1, t1, hone, hentries1, hbytes1, hfin1⟩ := publishOne_returns (setMedia s made)
    (components c.relDir) c.relDir .system e.system h.at_.session hsysSource (hfree .system)
  have hfree1 : (m1.finished (components c.relDir) .mic).any (!·.isFile) = false := by
    rw [hfin1, if_neg (by simp)]
    exact hfree .mic
  obtain ⟨m2, copy2, t2, htwo, hentries2, hbytes2, hfin2⟩ := publishOne_returns (setMedia s m1)
    (components c.relDir) c.relDir .mic e.mic h.at_.session hmicSource hfree1
  refine ⟨m2, ⟨c.meetingId, c.relDir, [t1, t2]⟩, ?_, rfl, h.relDir_ne, h.normal,
    fun path hpath => ?_, fun leg => ⟨?_, ?_⟩, fun leg => ?_⟩
  · exact (returns_readSession h.at_.session (io_eq_ok.mpr h.owner)).bind <| h.manifest.bind <|
      h.ready.bind <| .bind (.read (okOr_eq_ok.mpr h.encoded)) <|
      (verifySource_returns h.at_ hsettled (h.sources .system)).bind <|
      (verifySource_returns h.at_ hsettled (h.sources .mic)).bind <|
      hmade.bind <| hone.bind <| htwo.bind .pure
  · rw [hentries2]
    exact (congrFun hentries1 path).trans (hdirs path hpath)
  · cases leg with
    | system | mic => exact ⟨_, rfl, rfl, rfl, rfl, rfl⟩
  · obtain ⟨path, file, hpath, -⟩ := verifyEncodedTrack_iff_content.mp (h.sources leg)
    exact ⟨path, hpath⟩
  · cases leg with
    | system =>
      refine ⟨copy1, ?_, by rw [hbytes1]; exact hsysContent⟩
      rw [show (recordOf c e).relDir = c.relDir from rfl, hfin2, if_neg (by simp)]
      show m1.finished (components c.relDir) .system = _
      rw [hfin1, if_pos ⟨rfl, rfl⟩]
    | mic =>
      refine ⟨copy2, ?_, by rw [hbytes2]; exact hmicContent⟩
      rw [show (recordOf c e).relDir = c.relDir from rfl, hfin2, if_pos ⟨rfl, rfl⟩]

/-- What a removal needs to get to the guard. -/
structure Retirable (lib : Libopus σ δ) (p : Promotion) (s : Disk) (dir : SessionDir)
    (m : Manifest) (e : EncodedSession) : Prop extends Stamped lib p s dir m e where
  whole : Whole lib s.media
  owner : archiveOwner dir = .ok ()
  raw : verifyRetainedPcm dir e = .ok ()

/-- Everything in front of the guard. -/
theorem retire_checked (json : Replay.Json) (h : Retirable lib p s dir m e) :
    let rest : PromoteProg Unit := do
      readSession (guardForRetirement json m.id)
      Prog.read fun disk => refuseIf disk.retired.isSome
        (.io "retiring the session directory" .alreadyExists)
      Prog.step fun disk => { disk with session := none, retired := disk.session }
      Prog.step fun disk => { disk with retired := none }
    (retire lib json s).result = (rest s).result ∧ (retire lib json s).state = (rest s).state := by
  have hat := h.at_
  have howned : ownedForRetirement dir = .ok () := by
    rw [ownedForRetirement, h.owner]
  have h1 := returns_readSession hat.session howned
  have h2 : (readSession manifestOf).Returns s m s :=
    returns_readSession hat.session (okOr_eq_ok.mpr hat.manifest)
  have h3 : (Prog.read fun _ => okOr m.promoted .notPublished : PromoteProg _).Returns s p s :=
    .read (okOr_eq_ok.mpr h.promoted)
  have h4 := verify_returns hat h.whole h.encoded h.published
  have h5 : (Prog.read fun _ => okOr m.encoded .notEncoded : PromoteProg _).Returns s e s :=
    .read (okOr_eq_ok.mpr h.encoded)
  have h6 : (readSession fun dir => io "verifying retained raw audio"
      (verifyRetainedPcm dir e)).Returns s () s :=
    returns_readSession hat.session (io_eq_ok.mpr h.raw)
  rw [retire, h1.run_bind, h2.run_bind, h3.run_bind, h4.run_bind, h5.run_bind, h6.run_bind]
  exact ⟨rfl, rfl⟩

theorem retire_returns (h : Retirable lib p s dir m e) (hretired : s.retired = none)
    (hguard : guardForRetirement json m.id dir = .ok ()) :
    (retire lib json).Returns s () { s with session := none, retired := none } := by
  obtain ⟨hresult, hstate⟩ := retire_checked json h
  rw [Prog.Returns, hresult, hstate]
  refine (returns_readSession h.at_.session hguard).bind <|
    .bind (.check (refuseIf_eq_ok.mpr ?_)) <|
    .bind (.step rfl) (.step rfl)
  rw [hretired]
  rfl

/-- The removal at the end goes through, or the transcription is pending. -/
theorem retireFinishedReplay_returns (json : Replay.Json) (h : Retirable lib p s dir m e)
    (hretired : s.retired = none) :
    ∃ after, (retireFinishedReplay lib json).Returns s () after ∧
      (guardForRetirement json m.id dir = .ok () → after.session = none) := by
  cases hguard : guardForRetirement json m.id dir with
  | ok u =>
    have hgone := retire_returns h hretired hguard
    exact ⟨_, .bind (Prog.returns_attempt.mpr hgone) .pure, fun _ => rfl⟩
  | error err =>
    obtain ⟨reason, rfl⟩ : ∃ reason, err = .pendingTranscription reason := by
      rw [guardForRetirement] at hguard
      split at hguard
      · exact ⟨_, (Except.error.inj hguard).symm⟩
      · exact ⟨_, (Except.error.inj hguard).symm⟩
      · exact (error_ne_ok hguard.symm).elim
    have hpending : (retire lib json s).result = .error (.pendingTranscription reason) := by
      rw [(retire_checked json h).1]
      have hread : readSession (guardForRetirement json m.id) s =
          ⟨.error (.pendingTranscription reason), s, []⟩ := by
        rw [readSession, Prog.read, h.at_.session]
        dsimp only
        rw [hguard]
      have hrun : ∀ f : Unit → PromoteProg Unit,
          (readSession (guardForRetirement json m.id) >>= f) s =
          Prog.bind (readSession (guardForRetirement json m.id)) f s := fun _ => rfl
      rw [hrun, Prog.bind, hread]
    exact ⟨_, .bind (Prog.returns_attempt.mpr ⟨hpending, rfl⟩) .pure,
      fun h => (error_ne_ok h).elim⟩

/-- Where every name is synced already, verification changes nothing. -/
theorem verify_preserves (hwhole : Whole lib s.media) (p : Promotion) (m : Manifest) :
    (verify lib p m).Preserves (· = s) := by
  have hone : ∀ e leg, (verifyPublished lib p m e leg).Preserves (· = s) := by
    intro e leg
    refine .bind .read fun _ => .step ?_
    rintro t rfl
    show setMedia t (t.media.syncFinished (components p.relDir) leg) = t
    rw [whole_syncFinished hwhole]
    rfl
  exact .bind .read fun e => .bind .read fun _ => .bind .read fun _ =>
    .bind (hone e .system) fun _ => hone e .mic

theorem stillPublished_returns (hat : At s dir m) (hwhole : Whole lib s.media) :
    ∃ b, (stillPublished lib m).Returns s b s ∧
      (b = true → ∃ p e, m.promoted = some p ∧ m.encoded = some e ∧
        Published lib p m e dir s.media) := by
  have hspec := (stillPublished_spec (m := m)
    (.refl : Evolves lib True .checks s s) hat.session).post s
    rfl
  obtain ⟨b, hb⟩ : ∃ b, (stillPublished lib m).Returns s b s := by
    rw [stillPublished]
    cases m.promoted with
    | none => exact ⟨false, .pure⟩
    | some p =>
      exact ⟨_, .bind (Prog.returns_attempt.mpr ⟨rfl, (verify_preserves hwhole p m).post s rfl⟩)
        .pure⟩
  exact ⟨b, hb, (hspec.2 b hb.1).mp⟩

/-- The second half of a promotion, behind an encode. -/
theorem publishAndRetire_returns (json : Replay.Json) {s₁ : Disk} {env : EncodeEnv}
    (hencode : (encode codecs env).Returns s₁ () s) (h : Unobstructed codecs.lib s dir m c e)
    (hwhole : Whole codecs.lib s.media) (hretired : s.retired = none) (hsettled : Settled dir) :
    ∃ q after, (publishAndRetire codecs json env).Returns s₁ q after ∧
      (guardForRetirement json m.id dir = .ok () → after.session = none) := by
  obtain ⟨media, q, hpublish, hpub⟩ := publish_returns h hwhole
    (hsettled.archives m e h.at_.manifest h.encoded)
  have hspec : Publishing codecs.lib True .any s dir [] (publish codecs.lib s).state ∧
      ∀ p, (publish codecs.lib s).result = .ok p → ∃ m c e, dir.manifest = some m ∧
        m.claim = some c ∧ m.encoded = some e ∧ p = recordOf c e :=
    (publish_spec (by decide)).post s (publishing_start .refl h.at_.session)
  rw [hpublish.2] at hspec
  have hwhole' : Whole codecs.lib media :=
    evolves_invariant hspec.1.evolves hwhole fun _ _ => whole_change
  obtain ⟨m', c', e', hm', hc', he', rfl⟩ := hspec.2 q hpublish.1
  obtain rfl : m = m' := some.inj (h.at_.manifest.symm.trans hm')
  obtain rfl : c = c' := mem_unique h.claim hc'
  obtain rfl : e = e' := mem_unique h.encoded he'
  let m' : Manifest := { m with promoted := some (recordOf c e) }
  let dir' : SessionDir := { dir with manifest := some m' }
  have hready' : Retirable codecs.lib (recordOf c e) (setManifest (setMedia s media) dir m') dir'
      m' e := ⟨⟨⟨rfl, rfl⟩, rfl, h.encoded, hpub.transfer rfl rfl hpub.dirs fun _ _ _ h => h⟩,
    hwhole', h.owner, h.raw⟩
  have hstamp : (stamp (recordOf c e)).Returns (setMedia s media) ()
      (setManifest (setMedia s media) dir m') := by
    refine .bind (returns_readSession h.at_.session (okOr_eq_ok.mpr h.at_.manifest))
      (.step ?_)
    show ({ setMedia s media with session := s.session.map _ } : Disk) = _
    rw [h.at_.session]
    rfl
  obtain ⟨after, hretire, hgone⟩ := retireFinishedReplay_returns json hready' hretired
  exact ⟨_, after, hencode.bind <| hpublish.bind <| hstamp.bind <| hretire.bind .pure, hgone⟩

/-- A promotion that nothing stands in the way of returns. -/
theorem promote_returns (json : Replay.Json) (h : Unobstructed codecs.lib s dir m c e)
    (hwhole : Whole codecs.lib s.media) (hretired : s.retired = none) (hsettled : Settled dir)
    (env : EncodeEnv) :
    ∃ q after, (promote codecs json env).Returns s q after ∧
      (guardForRetirement json m.id dir = .ok () → after.session = none) := by
  obtain ⟨b, hstill, hintact⟩ := stillPublished_returns h.at_ hwhole
  cases b with
  | false =>
    have hencode : (encode codecs env).Returns s () s := by
      refine h.manifest.bind ?_
      rw [h.encoded]
      exact .pure
    obtain ⟨q, after, hreturns, hgone⟩ :=
      publishAndRetire_returns json hencode h hwhole hretired hsettled
    exact ⟨q, after, h.manifest.bind <| h.ready.bind <| hstill.bind hreturns, hgone⟩
  | true =>
    obtain ⟨p, e', hp, he', hpub⟩ := hintact rfl
    obtain rfl : e = e' := mem_unique h.encoded he'
    obtain ⟨after, hretire, hgone⟩ := retireFinishedReplay_returns json
      ⟨⟨h.at_, hp, h.encoded, hpub⟩, hwhole, h.owner, h.raw⟩ hretired
    refine ⟨p, after, h.manifest.bind <| h.ready.bind <| hstill.bind ?_, hgone⟩
    rw [hp]
    exact hretire.bind .pure

/-- What a promotion needs that has to encode first. -/
structure Encodable (env : EncodeEnv) (s : Disk) (dir : SessionDir) (m : Manifest) (c : Claim) :
    Prop extends Fresh c s dir m where
  ended : m.endedAtMs.isNone = false
  ready : Ready dir m
  place : ∃ place, Takes env dir m place
  legs : ∀ leg, Accepted ((m.trackFormats dir.pcm).of leg).sampleRateHz ∧
    Verifiable (m.trackFormats dir.pcm) dir leg
  relDir_ne : c.relDir.isEmpty = false
  normal : (components c.relDir).all Component.isNormal = true
  free : ∀ path ∈ ancestors (components c.relDir), s.media.entries path ≠ some false

/-- Behind the encode nothing stands in its way. -/
theorem encode_unobstructed (laws : Lawful codecs) {env : EncodeEnv} (h : Encodable env s dir m c)
    (hsettled : Settled dir) : ∃ e dir', (encode codecs env).Returns s () (s.setSession dir') ∧
      Unobstructed codecs.lib (s.setSession dir') dir' { m with encoded := some e } c e ∧
      Settled dir' := by
  obtain ⟨e, dir', hreturns⟩ := encodeSession_total laws h.ready h.place
    fun leg => ⟨(h.legs leg).1, (h.legs leg).2.2⟩
  obtain ⟨m', last, harchives, rfl⟩ := encodeSession_iff.mp hreturns
  obtain ⟨m1, hready, hleaves⟩ := encodeSession_leaves laws hreturns
  obtain rfl : m1 = m := Except.ok.inj (hready.manifest_eq.symm.trans h.ready.manifest_eq)
  obtain ⟨hm', -, harchived⟩ := encodeArchives_settled harchives
  obtain rfl : m' = m1 := some.inj (hm'.symm.trans h.at_.manifest)
  refine ⟨e, recordTracks m' e last, ?_, ?_, ?_, ?_⟩
  · refine (returns_readSession h.at_.session (okOr_eq_ok.mpr h.at_.manifest)).bind ?_
    rw [h.encoded]
    exact .bind (.zoom h.at_.session (Prog.returns_mapError.mpr hreturns)) .pure
  · exact {
      at_ := ⟨rfl, rfl⟩
      claim := h.claim
      encoded := rfl
      ended := h.ended
      owner := by
        rw [archiveOwner, hleaves.captureOwner_eq]
        exact h.ready.owner
      sources := fun leg => by
        have hverified := encodeArchives_verified laws harchives (h.legs leg).2
        exact hverified
      raw := hleaves.verifyRetainedPcm hready
      relDir_ne := h.relDir_ne
      normal := h.normal
      free := h.free }
  · rw [hleaves.pcm_eq]
    exact hsettled.pcm
  · intro m1 e1 hm1 he1
    obtain rfl := some.inj (hleaves.manifest_eq.symm.trans hm1)
    obtain rfl := some.inj he1
    exact harchived

theorem Encodable.promote_returns (laws : Lawful codecs) (json : Replay.Json) {env : EncodeEnv}
    (h : Encodable env s dir m c) (hwhole : Whole codecs.lib s.media) (hretired : s.retired = none)
    (hsettled : Settled dir) : ∃ q after, (promote codecs json env).Returns s q after := by
  obtain ⟨e, dir', hencode, hfree, hsettled'⟩ := encode_unobstructed laws h hsettled
  obtain ⟨q, after, hreturns, -⟩ :=
    publishAndRetire_returns json hencode hfree hwhole hretired hsettled'
  refine ⟨q, after, (returns_readSession h.at_.session (okOr_eq_ok.mpr h.at_.manifest)).bind
    (.bind (a := c) (.read ?_) (.bind (a := false) ?_ hreturns))⟩
  · rw [readyClaim, h.ended, refuseIf_false, ok_bind, h.claim]
    rfl
  · rw [stillPublished, h.promoted]
    exact .pure

/-- The record a promotion of this state is going to return. -/
theorem returning_of_claim (hat : At s dir m) (hc : m.claim = some c) (he : m.encoded = some e)
    (hdir : ∀ q, m.promoted = some q → components q.relDir = components c.relDir →
      q = recordOf c e) :
    ∃ p, Returning lib p s ∧ ((m.promoted = some p ∧ Published lib p m e dir s.media) ∨
      p = recordOf c e) := by
  by_cases hpub : ∃ p, m.promoted = some p ∧ Published lib p m e dir s.media
  · obtain ⟨p, hp, hpublished⟩ := hpub
    exact ⟨p, .inr (.inl ⟨dir, m, e, hat, hp, he, hpublished⟩), .inl ⟨hp, hpublished⟩⟩
  · refine ⟨recordOf c e, .inr (.inr ⟨c, e, dir, m, rfl, hat, hc, he, hdir, fun q hq h => ?_⟩),
      .inr rfl⟩
    exact absurd ⟨q, hq, h⟩ hpub

/-! ## A session with two silent legs -/

/-- The packets of a leg without a sample. -/
def quietPackets : List Ogg.Packet :=
  match encodePcm briefCodecs byteReads ⟨16000, 1⟩ none with
  | .ok r => r.2
  | .error _ => []

def quietArchive : DurableFile := archiveFile (briefCodecs.muxer.mux 1 quietPackets)

def quietTrack (leg : Leg) : EncodedTrack := ⟨leg.opus, 0, quietArchive.bytes.length, 0, 16000⟩

def quietTracks : EncodedSession := ⟨quietTrack .system, quietTrack .mic⟩

theorem quiet_recorded (leg : Leg) :
    Recorded briefCodecs ⟨16000, 1⟩ 0 (quietTrack leg) quietArchive := by
  have hsane : (⟨16000, 1⟩ : TrackFormat).sane = ⟨16000, 1⟩ := rfl
  have hduration : u64 (u64 (sampleCount ⟨16000, 1⟩ 0) * 1000) / expectedRate 16000 = 0 := by
    decide
  obtain ⟨stats, packets, hok, -, -, hfits⟩ := encodePcm_ok briefCodecsLawful byteReads hsane
    (.inl (by decide)) RawLeg.none (by decide : 1 < 2 ^ 32)
  obtain ⟨hlength, count, hinspect⟩ := hfits (by decide)
  have hpackets : quietPackets = packets := by
    rw [quietPackets, hok]
  have hbytes : quietArchive.bytes = briefCodecs.muxer.mux 1 packets := by
    rw [quietArchive, hpackets]
    exact archiveFile_bytes hlength
  refine ⟨rfl, rfl, rfl, hduration.symm, rfl, fun _ => ⟨count, ?_⟩⟩
  rw [hbytes]
  exact hinspect

theorem quiet_content (leg : Leg) :
    ContentOk briefOpus (quietTrack leg) (some ⟨16000, 1⟩) quietArchive.bytes := by
  let archives : ArchiveDir := ⟨fun _ _ => some (.file quietArchive), fun _ => none⟩
  have hpath : archivePath archives leg (quietTrack leg).file = .ok none := if_pos rfl
  have hverified := (verifyEncodedTrack_iff rfl (quiet_recorded leg) hpath rfl).mpr
    ⟨by decide, by decide⟩
  obtain ⟨path, file, -, hfile, hcontent⟩ := verifyEncodedTrack_iff_content.mp hverified
  cases hfile
  exact hcontent

def quietClaim : Claim := ⟨"m", "media/2026/01/m"⟩

def quietManifest : Manifest :=
  ⟨"s", 16000, 1, 4, none, none, some 1000, some quietTracks, some quietClaim, none⟩

variable (streams : Replay.ReplaySource → Replay.Stream) (promoted : Option Promotion)

/-- The raw legs are discarded; `streams` is what is left of the two sources. -/
def quietDir : SessionDir where
  manifest := some { quietManifest with promoted }
  pcm _ := none
  archives := ⟨fun _ _ => some (.file quietArchive), fun _ => none⟩
  captureOwner := .absent
  streams
  coverageOwned _ := false

def quietDisk : Disk :=
  ⟨some (quietDir streams none), none, ⟨fun _ => none, fun _ _ => none, fun _ _ => none⟩⟩

/-- A codec for markers that are never read. -/
def unreadJson : Replay.Json :=
  ⟨⟨fun _ => [], fun _ => none⟩, ⟨fun _ => [], fun _ => none⟩, ⟨fun _ => [], fun _ => none⟩⟩

theorem quiet_at : At (quietDisk streams) (quietDir streams none) quietManifest := ⟨rfl, rfl⟩

theorem quiet_settled : Settled (quietDir streams promoted) where
  pcm _ _ h := absurd h nofun
  archives m e _ _ leg path file _ hfile := by
    cases hfile
    rfl

theorem quiet_whole : Whole briefOpus (quietDisk streams).media :=
  ⟨fun _ _ _ h => absurd h nofun, fun _ _ _ h => absurd h nofun⟩

theorem quiet_verified (leg : Leg) :
    SourceVerified briefOpus (quietDir streams promoted) quietManifest quietTracks leg := by
  refine verifyEncodedTrack_iff_content.mpr ⟨none, quietArchive, ?_, rfl, ?_⟩
  · cases leg <;> exact if_pos rfl
  · cases leg <;> exact quiet_content _

theorem quiet_unobstructed :
    Unobstructed briefOpus (quietDisk streams) (quietDir streams none) quietManifest quietClaim
      quietTracks where
  at_ := quiet_at streams
  claim := rfl
  encoded := rfl
  ended := rfl
  owner := rfl
  sources := quiet_verified streams none
  raw := rfl
  relDir_ne := by decide
  normal := by decide
  free _ _ := nofun

def noStreams (_ : Replay.ReplaySource) : Replay.Stream := ⟨⟨none, none, none, none, none⟩, none⟩

/-! ## Crashes, and runs again -/

/-- What the tracks of a record rest on: they were verified at the start, or there were none and
    the raw leg can be encoded. -/
def Grounded (lib : Libopus σ δ) (dir₀ : SessionDir) (m₀ : Manifest) (e : EncodedSession)
    (leg : Leg) : Prop :=
  match m₀.encoded with
  | some _ => SourceVerified lib dir₀ m₀ e leg
  | none => Verifiable (m₀.trackFormats dir₀.pcm) dir₀ leg

theorem Keeps.verified (h : Keeps lib dir₀ m₀ dir m) (he : m.encoded = some e)
    (hleg : Grounded lib dir₀ m₀ e leg) : SourceVerified lib dir m e leg := by
  unfold Grounded at hleg
  cases hencoded : m₀.encoded with
  | none =>
    rw [hencoded] at hleg
    exact (h.gained hencoded e he leg).2 hleg
  | some e₀ =>
    rw [hencoded] at hleg
    obtain ⟨he₀, hsame⟩ := h.kept e₀ hencoded
    obtain rfl : e₀ = e := mem_unique he₀ he
    exact hsame.verified h.trackFormats_eq hleg

/-- Any calls on a session, each cut after any step and followed by restarts. The session
    directory is in place, with its raw legs and with the complete tracks its manifest has
    recorded, or the media tree holds every track at its verified content; no finished name
    holds a part; and as long as the directory is in place a promotion, cut and run again as
    often as one likes, returns one and the same record, also one that has to encode first. -/
theorem promotion_survives_crashes {codecs : Codecs σ δ φ ρ} (laws : Lawful codecs)
    {json : Replay.Json} {start : Disk} {dir₀ : SessionDir} {m₀ : Manifest}
    (hat₀ : At start dir₀ m₀) (hsettled : Settled dir₀)
    (hwhole : Whole codecs.lib start.media) (hretired : start.retired = none) {s : Disk}
    (hreach : Reach codecs json start s) :
    ((∃ dir m, At s dir m ∧ dir.pcm = dir₀.pcm ∧ (∀ e, m₀.encoded = some e → m.encoded = some e) ∧
        ∀ e, m.encoded = some e → ∀ leg, Grounded codecs.lib dir₀ m₀ e leg →
          SourceVerified codecs.lib dir m e leg) ∨
      (s.session = none ∧ MediaHolds codecs.lib dir₀ m₀ s.media)) ∧
    (∀ path leg node, s.media.finished path leg = some node → ∃ file, node = .file file ∧
      file.synced = file.bytes.length ∧
      ∃ track format, ContentOk codecs.lib track (some format) file.bytes) ∧
    (∀ dir m c e, At s dir m → m.claim = some c → m.encoded = some e →
      (∀ q, m.promoted = some q → components q.relDir = components c.relDir → q = recordOf c e) →
      ∃ p, ((m.promoted = some p ∧ Published codecs.lib p m e dir s.media) ∨ p = recordOf c e) ∧
        ∀ u, Retries codecs json s u → ∀ env,
          (∀ q after, (promote codecs json env).Returns u q after → q = p) ∧
          ∀ dir' m' c' e', Unobstructed codecs.lib u dir' m' c' e' →
            ∃ after, (promote codecs json env).Returns u p after) ∧
    ∀ dir m c, Fresh c s dir m →
      (∀ u, Retries codecs json s u → u.session = none ∨ Pending codecs.lib c u) ∧
      ∀ env, (∀ q after, (promote codecs json env).Returns s q after → ∃ e, q = recordOf c e ∧
          (∀ dir' m', At after dir' m' → m'.encoded = some e) ∧
          ∀ u, Retries codecs json after u → ∀ env' q' after',
            (promote codecs json env').Returns u q' after' → q' = q) ∧
        (Encodable env s dir m c → ∃ q after, (promote codecs json env).Returns s q after) := by
  have hstart : Inv codecs.lib dir₀ m₀ start :=
    ⟨.inl ⟨dir₀, m₀, hat₀, keeps_refl hsettled⟩, hwhole, fun _ => hretired⟩
  have hinv := inv_reach laws hstart hreach
  refine ⟨?_, hinv.whole.track, fun dir m c e hat hc he hdir => ?_, fun dir m c hfresh =>
    ⟨fun u hu => (pending_retries laws hinv (.inl ⟨dir, m, hfresh⟩) hu).2, fun env =>
      ⟨fun q after hreturns => ?_, fun hfree => ?_⟩⟩⟩
  · rcases hinv.safe with ⟨dir, m, hat, hkeeps⟩ | hgone
    · exact .inl ⟨dir, m, hat, hkeeps.pcm_eq, fun e he => (hkeeps.kept e he).1,
        fun e he leg hleg => hkeeps.verified he hleg⟩
    · exact .inr hgone
  · obtain ⟨p, hreturning, hwhich⟩ := returning_of_claim hat hc he hdir
    refine ⟨p, hwhich, fun u hu env => ?_⟩
    obtain ⟨hinv', hreturning'⟩ := returning_retries laws hinv hreturning hu
    have honly := (returning_promote laws json hinv'.whole hreturning' env).1
    refine ⟨honly, fun dir' m' c' e' hfree => ?_⟩
    obtain ⟨q, after, hreturns, -⟩ := promote_returns json hfree hinv'.whole
      (hinv'.leftover hfree.at_.not_none) (hinv'.settled hfree.at_) env
    obtain rfl := honly q after hreturns
    exact ⟨after, hreturns⟩
  · obtain ⟨hreturning, e, hrecord, hencoded⟩ := fresh_promote laws hinv.whole hfresh hreturns
    refine ⟨e, hrecord, hencoded, fun u hu env' q' after' hreturns' => ?_⟩
    have hcall : ((Call.promote env).program codecs json).Returns s () after := hreturns.bind .pure
    have hmoment : after ∈ (Call.promote env).moments codecs json s :=
      mem_append_right _ (mem_singleton.mpr hcall.2.symm)
    obtain ⟨hinv', hreturning'⟩ := returning_retries laws
      (inv_reach laws hinv (.call .start (.promote env) hmoment)) hreturning hu
    exact (returning_promote laws json hinv'.whole hreturning' env').1 q' after' hreturns'
  · exact hfree.promote_returns laws json hinv.whole (hinv.leftover hfree.at_.not_none)
      (hinv.settled hfree.at_)

/-- A session that was stopped after one frame. -/
def stoppedDisk : Disk :=
  ⟨some (stoppedSession [0, 0]), none, ⟨fun _ => none, fun _ _ => none, fun _ _ => none⟩⟩

def claimedManifest : Manifest := { stoppedManifest with claim := some (claimOf "m" 0) }

/-- The session once it is claimed; `archives` is what an encode has left. -/
def claimedDir (archives : ArchiveDir) : SessionDir :=
  { stoppedSession [0, 0] with manifest := some claimedManifest, archives }

def claimedDisk (archives : ArchiveDir) : Disk := stoppedDisk.setSession (claimedDir archives)

def noArchives : ArchiveDir := ⟨fun _ _ => none, fun _ => none⟩

/-- The archive of the system leg has been created, and nothing written to it. -/
def cutArchives : ArchiveDir := noArchives.setFile none .system (some (.file .empty))

def laterEnv : EncodeEnv :=
  ⟨fun _ => 2, fun _ => by decide, [⟨['a'], by decide, by decide⟩], byteReads⟩

theorem cut_mem : claimedDisk cutArchives ∈
    (Call.promote firstEnv).moments briefCodecs unreadJson (claimedDisk noArchives) := by
  have hmanifest : (readSession manifestOf).Returns (claimedDisk noArchives) claimedManifest
      (claimedDisk noArchives) := ⟨rfl, rfl⟩
  have hencode : claimedDir cutArchives ∈
      (encodeArchives briefCodecs firstEnv (claimedDir noArchives)).trace := by
    -- what comes before the first archive is read only
    have hread : ∀ {α : Type} {f : SessionDir → Except IoError α} {a : α},
        f (claimedDir noArchives) = .ok a →
        (liftIo f).Returns (claimedDir noArchives) a (claimedDir noArchives) :=
      fun h => returns_liftIo.mpr ⟨h, rfl⟩
    refine (hread (a := ()) rfl).mem_trace_after <|
      (hread (a := claimedManifest) rfl).mem_trace_after <|
      (hread (a := ()) rfl).mem_trace_after <| (hread (a := ()) rfl).mem_trace_after <|
      Prog.Returns.mem_trace_after (.read rfl) <| Prog.Returns.mem_trace_after (.read rfl) <|
      (returns_takePlace.mpr ⟨.top rfl, rfl⟩).mem_trace_after <| Prog.mem_trace_bind <|
      Prog.mem_trace_onError <| Prog.mem_trace_bind ?_
    exact Prog.Returns.mem_trace_after (.read rfl) <|
      Prog.Returns.mem_trace_after (.read rfl) (Prog.mem_trace_bind mem_cons_self)
  refine mem_append_left _ (Prog.mem_trace_bind (hmanifest.mem_trace_after ?_))
  refine Prog.Returns.mem_trace_after (a := claimOf "m" 0) (.read rfl) ?_
  refine Prog.Returns.mem_trace_after (a := false) .pure (Prog.mem_trace_bind ?_)
  refine hmanifest.mem_trace_after (Prog.mem_trace_bind ?_)
  exact mem_map.mpr ⟨claimedDir cutArchives, Prog.mem_trace_bind hencode, rfl⟩

theorem NodeLoss.of_synced {node : Option Node}
    (h : ∀ f, node = some (.file f) → f.synced = f.bytes.length) : NodeLoss node node := by
  rcases node with _ | ⟨f⟩ | ⟨n⟩
  · exact .none
  · have hloss := NodeLoss.file f 0
    rwa [crash_of_synced (h f rfl)] at hloss
  · exact .other n

theorem stopped_settled (archives : ArchiveDir) (leg : Leg) (f : DurableFile)
    (hf : (claimedDir archives).pcm leg = some (.file f)) : f.synced = f.bytes.length := by
  cases leg with
  | system =>
    cases hf
    rfl
  | mic => cases hf

theorem cut_restart : Restart (claimedDisk cutArchives) (claimedDisk cutArchives) where
  session := .inr ⟨_, _, rfl, rfl, rfl, rfl, fun leg => .of_synced (stopped_settled _ leg),
    fun place leg => .of_synced fun f hf => by
      have hfile : (if place = none ∧ leg = .system then some (Node.file .empty) else none) =
        some (.file f) := hf
      split at hfile
      · cases hfile
        rfl
      · cases hfile⟩
  retired h := h
  entries_eq := rfl
  finished _ _ := .none

theorem cut_encodable : Encodable laterEnv (claimedDisk cutArchives) (claimedDir cutArchives)
    claimedManifest (claimOf "m" 0) where
  at_ := ⟨rfl, rfl⟩
  claim := rfl
  encoded := rfl
  promoted := rfl
  ended := rfl
  ready := by
    refine ⟨rfl, rfl, fun leg => ?_⟩
    cases leg with
    | system => rfl
    | mic => rfl
  place := ⟨_, .fresh rfl ⟨['a'], by decide, by decide⟩ rfl⟩
  legs leg := by
    cases leg <;> exact ⟨.inl (by decide), by decide, by decide⟩
  relDir_ne := by decide
  normal := by decide
  free _ _ := nofun

/-- The session is claimed, and its promotion is cut in the middle of the encode. After a restart
    it returns the record of the claim, and the same one ever after. -/
theorem promotion_of_stopped_session :
    Reach briefCodecs unreadJson stoppedDisk (claimedDisk cutArchives) ∧
    ∃ q after e, (promote briefCodecs unreadJson laterEnv).Returns
      (claimedDisk cutArchives) q after ∧
      q = recordOf (claimOf "m" 0) e ∧ ∀ u, Retries briefCodecs unreadJson after u →
        ∀ env q' after', (promote briefCodecs unreadJson env).Returns u q' after' → q' = q := by
  have hclaim : claimedDisk noArchives ∈
      (Call.claim "m" 0).moments briefCodecs unreadJson stoppedDisk :=
    mem_append_right _ (mem_singleton.mpr rfl)
  have hreach : Reach briefCodecs unreadJson stoppedDisk (claimedDisk cutArchives) :=
    .restart (.call (.call .start _ hclaim) _ cut_mem) cut_restart
  have hsettled : Settled (stoppedSession [0, 0]) :=
    ⟨stopped_settled noArchives, fun m e hm he => by cases hm; cases he⟩
  obtain ⟨-, hpromote⟩ := (promotion_survives_crashes briefCodecsLawful (⟨rfl, rfl⟩ : At stoppedDisk
    (stoppedSession [0, 0]) stoppedManifest) hsettled
    ⟨fun _ _ _ h => absurd h nofun, fun _ _ _ h => absurd h nofun⟩ rfl hreach).2.2.2 _ _ _
    cut_encodable.toFresh
  obtain ⟨hrecord, hreturns⟩ := hpromote laterEnv
  obtain ⟨q, after, hq⟩ := hreturns cut_encodable
  obtain ⟨e, hrecord, -, hlater⟩ := hrecord q after hq
  exact ⟨hreach, q, after, e, hq, hrecord, hlater⟩

/-- A second promotion of a session that was retired finds no session. -/
theorem promotion_of_retired_session :
    ∃ p after, (promote briefCodecs unreadJson firstEnv).Returns (quietDisk noStreams) p after ∧
      (promote briefCodecs unreadJson firstEnv after).result = .error .noSession := by
  have hfree : Unobstructed briefCodecs.lib (quietDisk noStreams)
      (quietDir noStreams none) quietManifest
    quietClaim quietTracks := quiet_unobstructed noStreams
  obtain ⟨q, after, hreturns, hgone⟩ := promote_returns unreadJson hfree (quiet_whole noStreams) rfl
    (quiet_settled noStreams none) firstEnv
  refine ⟨q, after, hreturns, ?_⟩
  rw [promote, bind_readSession_none (hgone rfl)]

end

end FlyOnTheWall.Promote
