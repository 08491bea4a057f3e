/-
  Crash and recovery of the coverage journal.

  Assumed of the file system: a write appends, `sync_data` makes what was written durable,
  `set_len` truncates, and a crash keeps the durable part of a file and some of the rest.
  Assumed of JSON (`Faithful`): a line holds no newline and reads back as what was written.

  * `Recovers`: what a recovered journal may hold, given what each owner in turn was told:
    every record whose call returned `Ok`, and of each owner at most the record in flight
    when it failed or was cut.
  * `Kept`: what holds of the two files in every state since the journal's creation.
  * `reopen_after_crash`: reopening after a crash at any point succeeds, recovers such a
    list of records, removes only a torn last line, and agrees with a snapshot.
-/
import FlyOnTheWall.Failover.CoverageSystem

namespace FlyOnTheWall.Coverage

open Lib Replay List Option Journal DurableFile

/-! ## What may be recovered -/

/-- Newest owner first. -/
def Recovers : List Generation → List Record → Prop
  | [], records => records = []
  | g :: older, records => ∃ base, Recovers older base ∧
      (records = base ++ g.acked ∨ ∃ r, g.inFlight = some r ∧ records = base ++ g.acked ++ [r])

variable {gs : List Generation} {records : List Record}

theorem Recovers.open (h : Recovers gs records) : Recovers (⟨[], none⟩ :: gs) records :=
  ⟨records, h, .inl (append_nil records).symm⟩

variable {acked : List Record}

section
variable (h : Recovers (⟨acked, none⟩ :: gs) records) (r : Record)
include h r

theorem Recovers.ack : Recovers (⟨acked ++ [r], none⟩ :: gs) (records ++ [r]) := by
  obtain ⟨base, hbase, hrecords | ⟨r', hr', -⟩⟩ := h
  · exact ⟨base, hbase, .inl (by rw [hrecords, append_assoc])⟩
  · cases hr'

/-- A record in flight may be there or not. -/
theorem Recovers.fail : Recovers (⟨acked, some r⟩ :: gs) records ∧
      Recovers (⟨acked, some r⟩ :: gs) (records ++ [r]) := by
  obtain ⟨base, hbase, hrecords | ⟨r', hr', -⟩⟩ := h
  · exact ⟨⟨base, hbase, .inl hrecords⟩, base, hbase, .inr ⟨r, rfl, by rw [hrecords]⟩⟩
  · cases hr'

end

/-! ## What is assumed of JSON -/

/-- Numbers that JSON can express. -/
def Entry.finite : Entry → Bool
  | .opened header => header.fallback.all fun plan =>
      plan.endpoint.marginDb.isFinite && plan.endpoint.speechFloorDb.isFinite &&
        plan.endpoint.minRangeDb.isFinite
  | .switched _ => true
  | .committed commit => commit.segments.all fun s =>
      s.confidence.all (·.isFinite) && s.words.all fun w => w.confidence.all (·.isFinite)

structure Faithful (codec : Codec Entry) : Prop where
  roundTrip : ∀ e : Entry, e.finite = true →
    codec.fromSlice (codec.toVec e ++ [newline]) = some e
  oneLine : ∀ e, newline ∉ codec.toVec e

/-- An entry that `encode` accepts and JSON can express. -/
structure Fits (codec : Codec Entry) (e : Entry) : Prop where
  short : (codec.toVec e).length ≤ maxRecordBytes - 1
  finite : e.finite = true

variable {codec : Codec Entry} {bytes : List UInt8}

theorem encode_eq_ok {e : Entry} (h : encode codec e = .ok bytes) :
    (codec.toVec e).length ≤ maxRecordBytes - 1 ∧ bytes = codec.toVec e ++ [newline] := by
  obtain ⟨hshort, hbytes⟩ := refuseIf_bind_ok.mp h
  exact ⟨by simpa using hshort, (Except.ok.inj hbytes).symm⟩

variable {header : Header}

theorem finite_of_validateFallback (h : validateFallback header.fallback = .ok ()) :
    (Entry.opened header).finite = true := by
  show header.fallback.all _ = true
  cases hplan : header.fallback with
  | none => rfl
  | some plan =>
    rw [hplan] at h
    obtain ⟨_, h⟩ := bind_rest h
    have h := refuseIf_eq_ok.mp h
    simp only [Bool.or_eq_false_iff, Bool.not_eq_false'] at h
    simp [h]

theorem all_of_any_not {x : Option Number} (h : x.any (!·.isFinite) = false) :
    x.all (·.isFinite) = true := by
  cases x with
  | none => rfl
  | some n => simpa using h

variable {j : Journal}

theorem CommitShape.finite {commit : CommittedAudio} (h : CommitShape j commit) :
    (Entry.committed commit).finite = true := by
  show commit.segments.all _ = true
  rw [List.all_eq_true]
  intro s hs
  have hshape := h.segments s hs
  rw [Bool.and_eq_true, List.all_eq_true]
  refine ⟨all_of_any_not hshape.confidence, fun w hw => all_of_any_not ?_⟩
  have hword := any_eq_false.mp hshape.words w hw
  simp only [refusesWord, Bool.or_eq_true, not_or, Bool.not_eq_true] at hword
  exact hword.2

/-! ## Audio on storage -/

variable (audio : Reader)

/-- The end of the complete samples known to be durable. -/
def syncedEnd : ℕ :=
  audio.firstSample + (audio.file.synced - audio.audioOffset) / 2

def writtenEnd : ℕ :=
  audio.firstSample + (audio.file.bytes.length - audio.audioOffset) / 2

/-- A stream whose creation has returned: its header is durable, and its writer has refused
    samples past the end of the clock. -/
structure AudioOk : Prop where
  header : audio.audioOffset ≤ audio.file.synced
  clock : writtenEnd audio ≤ u64Max

variable {audio : Reader}

theorem AudioOk.availableEnd (h : AudioOk audio) : audio.availableEnd = .ok (writtenEnd audio) :=
  Reader.availableEnd_eq_ok.mpr
    ⟨h.header.trans audio.file.synced_le, rfl, h.clock⟩

theorem syncedEnd_le_writtenEnd (audio : Reader) : syncedEnd audio ≤ writtenEnd audio := by
  have := audio.file.synced_le
  unfold syncedEnd writtenEnd
  omega

/-! ## Records that validate from a header on -/

/-- `Valid`, with the bounds of the audio instead of the audio. -/
def ValidWithin (first bound : ℕ) (j : Journal) : Record → Prop
  | .switched epoch => SwitchShape j epoch
  | .committed commit =>
    CommitShape j commit ∧ first ≤ commit.throughSample ∧ commit.throughSample ≤ bound

variable {last bound first : ℕ}

theorem valid_iff_validWithin (hlast : audio.availableEnd = .ok last) (r : Record) :
    Valid j audio r ↔ ValidWithin audio.firstSample last j r := by
  cases r with
  | switched epoch => exact Iff.rfl
  | committed commit => exact and_congr_right fun _ => Reader.readFrom_one_isOk hlast _

variable {bound' fuel validBytes : ℕ} {r : Record}

theorem ValidWithin.mono (h : ValidWithin first bound j r) (hle : bound ≤ bound') :
    ValidWithin first bound' j r := by
  cases r with
  | switched epoch => exact h
  | committed commit => exact ⟨h.1, h.2.1, h.2.2.trans hle⟩

/-- Validation does not read the length of the file. -/
theorem ValidWithin.of_validBytes {n : ℕ}
    (h : ValidWithin first bound { j with validBytes := n } r) :
    ValidWithin first bound j r := by
  cases r with
  | switched epoch => exact { h with }
  | committed commit =>
    obtain ⟨shape, hbounds⟩ := h
    exact ⟨{ shape with }, hbounds⟩

def ValidFrom (first bound : ℕ) : Journal → List Record → Prop
  | _, [] => True
  | j, r :: records => ValidWithin first bound j r ∧ ValidFrom first bound (j.apply r) records

theorem ValidFrom.mono (h : ValidFrom first bound j records) (hle : bound ≤ bound') :
    ValidFrom first bound' j records := by
  induction records generalizing j with
  | nil => exact trivial
  | cons r records ih => exact ⟨h.1.mono hle, ih h.2⟩

theorem validFrom_append {xs ys : List Record} : ValidFrom first bound j (xs ++ ys) ↔
      ValidFrom first bound j xs ∧ ValidFrom first bound (xs.foldl apply j) ys := by
  induction xs generalizing j with
  | nil => simp [ValidFrom]
  | cons x xs ih => simp [ValidFrom, ih, and_assoc]

/-! ## Loading what was written -/

/-- The lines of the records. -/
def bodies (codec : Codec Entry) (records : List Record) : List (List UInt8) :=
  records.map fun r => codec.toVec r.entry

theorem readLine_frame {body rest : List UInt8} (hline : newline ∉ body)
    (hshort : body.length ≤ maxRecordBytes - 1) :
    readLine (body ++ newline :: rest) = .ok (body ++ [newline], rest) := by
  have hlimit : body.length < maxRecordBytes + 1 := by omega
  have hlength : (body ++ [newline]).length ≤ maxRecordBytes := by
    rw [length_append]
    have : 0 < maxRecordBytes := by decide
    simp only [length_singleton]
    omega
  unfold readLine
  rw [takeLine_frame newline rest hline hlimit]
  dsimp only
  rw [refuseIf, if_neg (by simpa using hlength)]
  rfl

variable {torn : List UInt8}

theorem readLine_torn (hline : newline ∉ torn) (hshort : torn.length ≤ maxRecordBytes - 1) :
    readLine torn = .ok (torn, []) := by
  have hlimit : torn.length ≤ maxRecordBytes := by omega
  unfold readLine
  rw [takeLine_torn newline hline (by omega)]
  dsimp only
  rw [refuseIf, if_neg (by simpa using hlimit)]
  rfl

/-- A remainder that a crash can leave after the last complete line. -/
structure Torn (torn : List UInt8) : Prop where
  oneLine : newline ∉ torn
  short : torn.length ≤ maxRecordBytes - 1

theorem loadLoop_torn (htorn : Torn torn) : loadLoop codec audio (fuel + 1) j validBytes torn =
      .ok (j, validBytes, !torn.isEmpty) := by
  have hlast : torn.getLast? ≠ some newline := fun h => htorn.oneLine (mem_of_getLast? h)
  unfold loadLoop
  rw [readLine_torn htorn.oneLine htorn.short, ok_bind]
  dsimp only
  cases torn with
  | nil => rfl
  | cons b rest =>
    rw [if_neg (by simp), if_pos (by simpa using hlast)]
    rfl

theorem loadLoop_bodies (hcodec : Faithful codec) (hlast : audio.availableEnd = .ok last)
    (htorn : Torn torn) (hfits : ∀ r ∈ records, Fits codec r.entry)
    (hvalid : ValidFrom audio.firstSample last j records) (hfuel : records.length < fuel) :
    loadLoop codec audio fuel j validBytes (frames newline (bodies codec records) ++ torn) =
      .ok (records.foldl apply j,
        validBytes + (frames newline (bodies codec records)).length, !torn.isEmpty) := by
  induction records generalizing j fuel validBytes with
  | nil =>
    obtain ⟨fuel, rfl⟩ : ∃ n, fuel = n + 1 := ⟨fuel - 1, by
      omega⟩
    exact loadLoop_torn htorn
  | cons r records ih =>
    obtain ⟨fuel, rfl⟩ : ∃ n, fuel = n + 1 := ⟨fuel - 1, by
      omega⟩
    have hr := hfits r mem_cons_self
    have happly : j.applyEntry audio r.entry = .ok (j.apply r) :=
      applyEntry_eq_ok.mpr ⟨r, rfl, (valid_iff_validWithin hlast r).mpr hvalid.1, rfl⟩
    have hrest := @ih (j.apply r) fuel (validBytes + (codec.toVec r.entry ++ [newline]).length)
      (fun r hr => hfits r (mem_cons_of_mem _ hr)) hvalid.2 (Nat.lt_of_succ_lt_succ hfuel)
    unfold loadLoop
    rw [show frames newline (bodies codec (r :: records)) ++ torn =
        codec.toVec r.entry ++ newline :: (frames newline (bodies codec records) ++ torn) by
      simp [bodies], readLine_frame (hcodec.oneLine _) hr.short, ok_bind]
    dsimp only
    rw [if_neg (by simp), if_neg (by simp), hcodec.roundTrip _ hr.finite, okOr, ok_bind, happly,
      ok_bind, hrest]
    simp only [bodies, map_cons, frames_cons, foldl_cons, length_append, length_cons, length_nil]
    congr 3
    omega

/-- The file of a header and records. -/
def image (codec : Codec Entry) (header : Header) (records : List Record) : List UInt8 :=
  frames newline (codec.toVec (.opened header) :: bodies codec records)

/-- The journal that a header and records add up to. -/
def replay (header : Header) (records : List Record) : Journal :=
  records.foldl Journal.apply (.fromHeader header)

theorem image_concat (codec : Codec Entry) (header : Header) (records : List Record) (r : Record) :
    image codec header (records ++ [r]) =
      image codec header records ++ (codec.toVec r.entry ++ [newline]) := by
  simp [image, bodies]

theorem replay_concat (header : Header) (records : List Record) (r : Record) :
    replay header (records ++ [r]) = (replay header records).apply r := by
  simp [replay]

theorem foldl_apply_accepted (j : Journal) (records : List Record) :
    (records.foldl apply j).accepted = j.accepted ++ records := by
  induction records generalizing j with
  | nil => simp
  | cons r records ih =>
    have happly : (j.apply r).accepted = j.accepted ++ [r] := by cases r <;> rfl
    rw [foldl_cons, ih, happly, append_assoc, singleton_append]

theorem replay_accepted (header : Header) (records : List Record) :
    (replay header records).accepted = records := foldl_apply_accepted _ records

/-- A header as `create` writes it beside this audio, and as `load` accepts it. -/
structure HeaderOk (codec : Codec Entry) (audio : Reader) (source : Source) (header : Header) :
    Prop where
  schema : header.schema = 1
  session : header.sessionId = audio.header.sessionId
  source : header.source = source
  first : header.firstSample = audio.firstSample
  engine : validateEngine header.initial = .ok ()
  fallback : validateFallback header.fallback = .ok ()
  fits : Fits codec (.opened header)

variable {source : Source}

theorem HeaderOk.congr_header {audio' : Reader} (h : HeaderOk codec audio source header)
    (heq : audio'.header = audio.header) : HeaderOk codec audio' source header :=
  { h with
    session := heq ▸ h.session
    first := h.first.trans (congrArg Replay.Header.firstSample heq.symm) }

theorem readHeader_ok (hcodec : Faithful codec) (h : HeaderOk codec audio source header) :
    readHeader codec audio.header.sessionId source audio
      (codec.toVec (.opened header) ++ [newline]) = .ok header := by
  have hline : ((codec.toVec (.opened header) ++ [newline]).getLast? != some newline) = false := by
    simp
  have hsame : (header.schema != 1 || header.sessionId != audio.header.sessionId ||
      header.source != source || header.firstSample != audio.firstSample) = false := by
    simp [h.schema, h.session, h.source, h.first]
  unfold readHeader
  rw [hline, hcodec.roundTrip _ h.fits.finite]
  dsimp only [okOr, ok_bind]
  rw [hsame, h.engine, h.fallback]
  rfl

theorem loadBytes_image (hcodec : Faithful codec) (hheader : HeaderOk codec audio source header)
    (hlast : audio.availableEnd = .ok last) (htorn : Torn torn)
    (hfits : ∀ r ∈ records, Fits codec r.entry)
    (hvalid : ValidFrom audio.firstSample last (.fromHeader header) records) :
    loadBytes codec audio.header.sessionId source audio (image codec header records ++ torn) =
      .ok (replay header records, (image codec header records).length, !torn.isEmpty) := by
  have hfuel : records.length < (frames newline (bodies codec records) ++ torn).length + 1 := by
    have := length_le_length_frames newline (bodies codec records)
    simp only [bodies, length_map, length_append] at this ⊢
    omega
  unfold loadBytes
  rw [show image codec header records ++ torn = codec.toVec (.opened header) ++ newline ::
      (frames newline (bodies codec records) ++ torn) by simp [image],
    readLine_frame (hcodec.oneLine _) hheader.fits.short, ok_bind]
  dsimp only
  rw [readHeader_ok hcodec hheader, ok_bind, loadLoop_bodies hcodec hlast htorn hfits hvalid hfuel]
  simp only [replay, image, frames_cons, length_append, length_cons, length_nil]
  congr 3
  omega

/-! ## What is on the two files -/

/-- Since the creation of the journal: its file holds a header and complete records, of
    which `sure` are durable and the others may be lost, and a torn rest. Every record is
    covered by durable audio, any prefix that keeps `sure` may be recovered, and a healthy
    owner has in memory what the file says. -/
structure Kept (codec : Codec Entry) (s : System) (file : DurableFile) (header : Header)
    (sure unsure : List Record) (torn : List UInt8) : Prop where
  file_eq : s.file = some file
  bytes : file.bytes = image codec header (sure ++ unsure) ++ torn
  torn_ok : Torn torn
  header_ok : HeaderOk codec s.audio s.source header
  fits : ∀ r ∈ sure ++ unsure, Fits codec r.entry
  valid : ValidFrom s.audio.firstSample (syncedEnd s.audio) (.fromHeader header) (sure ++ unsure)
  durable : (image codec header sure).length ≤ file.synced
  recovers : ∀ kept, kept <+: unsure → Recovers s.generations (sure ++ kept)
  owner : ∀ j, s.owner = some j → j.failed = false → torn = [] ∧
    j = { replay header (sure ++ unsure) with validBytes := file.bytes.length } ∧
    ∃ acked older, s.generations = ⟨acked, none⟩ :: older

/-- The audio beside the journal, before and after its creation. -/
structure Beside (audio : Reader) (source : Source) : Prop where
  ok : AudioOk audio
  leg : audio.header.source = replaySource source

def Inv (codec : Codec Entry) (s : System) : Prop :=
  Beside s.audio s.source ∧ (s.created = true → ∃ file header sure unsure torn,
    Kept codec s file header sure unsure torn)

variable {s : System} {file : DurableFile} {sure unsure : List Record} {audio' : Reader}

theorem Touched.header_eq (h : Touched audio audio') : audio'.header = audio.header := by
  rcases h with rfl | rfl <;> rfl

theorem Touched.syncedEnd_le (h : Touched audio audio') : syncedEnd audio ≤ syncedEnd audio' := by
  rcases h with rfl | rfl
  · exact le_rfl
  · have := audio.file.synced_le
    show audio.firstSample + _ ≤ audio.firstSample + _
    simp only [sync_synced]
    omega

theorem Touched.ok (h : Touched audio audio') (hok : AudioOk audio) : AudioOk audio' := by
  rcases h with rfl | rfl
  · exact hok
  · exact ⟨hok.header.trans audio.file.synced_le, hok.clock⟩

theorem Generation.note_of_not_failed (g : Generation) (attempt : Record) (e : IoError)
    (failed : Bool) : g.note attempt (failed && !failed) (.error e) = g := by
  cases failed <;> rfl

theorem modifyHead_note_of_not_failed (gs : List Generation) (attempt : Record) (e : IoError)
    (failed : Bool) :
    (gs.modifyHead fun g => g.note attempt (failed && !failed) (.error e)) = gs := by
  cases gs with
  | nil => rfl
  | cons g gs => exact congrArg (· :: gs) (g.note_of_not_failed attempt e failed)

/-- A record that validates against the audio is covered once that audio is synced. -/
theorem Valid.within (hok : AudioOk audio) (h : Valid j audio r) (htouched : Touched audio audio')
    (hsafe : ∀ c, r = .committed c → audio' = { audio with file := audio.file.sync }) :
    ValidWithin audio'.firstSample (syncedEnd audio') j r := by
  have hfirst : audio'.firstSample = audio.firstSample :=
    congrArg Replay.Header.firstSample htouched.header_eq
  have hwithin := (valid_iff_validWithin hok.availableEnd r).mp h
  rw [hfirst]
  cases r with
  | switched epoch => exact hwithin
  | committed commit =>
    obtain ⟨shape, hle, hend⟩ := hwithin
    refine ⟨shape, hle, ?_⟩
    rw [hsafe commit rfl]
    exact hend

theorem Valid.finite (h : Valid j audio r) : r.entry.finite = true := by
  cases r with
  | switched epoch => rfl
  | committed commit => exact h.1.finite

section
variable (hk : Kept codec s file header sure unsure torn)
include hk

/-- The audio may change as long as its header stays and its durable part does not shrink. -/
theorem Kept.withAudio
    (hheader : audio.header = s.audio.header) (hle : syncedEnd s.audio ≤ syncedEnd audio) :
    Kept codec { s with audio } file header sure unsure torn where
  file_eq := hk.file_eq
  bytes := hk.bytes
  torn_ok := hk.torn_ok
  header_ok := hk.header_ok.congr_header hheader
  fits := hk.fits
  valid := by
    have hfirst : audio.firstSample = s.audio.firstSample :=
      congrArg Replay.Header.firstSample hheader
    rw [show ({ s with audio } : System).audio.firstSample = _ from hfirst]
    exact hk.valid.mono hle
  durable := hk.durable
  recovers := hk.recovers
  owner := hk.owner

theorem Kept.of_owner_none :
    Kept codec { s with owner := none } file header sure unsure torn :=
  { hk with owner := fun _ hj => absurd hj (some_ne_none _).symm }

/-- The records of the file with one more that validates against what they add up to. -/
theorem Kept.concat (hok : AudioOk s.audio)
    (hj : j = { replay header (sure ++ unsure) with validBytes := file.bytes.length })
    (hvalid : Valid j s.audio r) (htouched : Touched s.audio audio)
    (hsafe : ∀ c, r = .committed c → audio = { s.audio with file := s.audio.file.sync })
    (hencoded : encode codec r.entry = .ok bytes) :
    (∀ r' ∈ sure ++ (unsure ++ [r]), Fits codec r'.entry) ∧
      ValidFrom audio.firstSample (syncedEnd audio) (.fromHeader header)
        (sure ++ (unsure ++ [r])) := by
  have hkept := hk.withAudio htouched.header_eq htouched.syncedEnd_le
  rw [← append_assoc]
  constructor
  · intro r' hr'
    rcases mem_append.mp hr' with hold | hnew
    · exact hk.fits r' hold
    · obtain rfl := mem_singleton.mp hnew
      exact ⟨(encode_eq_ok hencoded).1, hvalid.finite⟩
  · refine validFrom_append.mpr ⟨hkept.valid, ?_, trivial⟩
    have hwithin := hvalid.within hok htouched hsafe
    rw [hj] at hwithin
    exact hwithin.of_validBytes

variable {file' : DurableFile}

theorem Kept.truncate (howner : s.owner = none)
    (hbytes : file'.bytes = image codec header (sure ++ unsure))
    (hsynced : min file.synced (image codec header (sure ++ unsure)).length ≤ file'.synced) :
    Kept codec { s with file := some file' } file' header sure unsure [] where
  file_eq := rfl
  bytes := by rw [hbytes, append_nil]
  torn_ok := ⟨nofun, Nat.zero_le _⟩
  header_ok := hk.header_ok
  fits := hk.fits
  valid := hk.valid
  durable := by
    have hle : (image codec header sure).length ≤ (image codec header (sure ++ unsure)).length := by
      simp [image, bodies]
    have := hk.durable
    omega
  recovers := hk.recovers
  owner := by
    intro j hj
    rw [show ({ s with file := some file' } : System).owner = s.owner from rfl, howner] at hj
    cases hj

theorem Kept.sync :
    Kept codec { s with file := some file.sync } file.sync header sure unsure torn :=
  { hk with file_eq := rfl, durable := hk.durable.trans file.synced_le }

variable (hcodec : Faithful codec)
include hcodec

theorem Kept.crash (keep : ℕ) :
    ∃ kept rest, Kept codec { s with owner := none, file := some (file.crash keep) }
      (file.crash keep) header sure kept rest := by
  have hcut := file.crash_bytes keep
  have hsure : (image codec header sure).length ≤ (file.crash keep).bytes.length :=
    hk.durable.trans (file.synced_le_crash keep)
  rw [hk.bytes, image, bodies, map_append, ← cons_append] at hcut
  obtain ⟨kept, rest, hkept, hbytes, hrest⟩ := exists_frames_of_cut
    (fun body hbody => by
      obtain ⟨r, hr, rfl⟩ := mem_map.mp hbody
      exact ⟨hcodec.oneLine _, (hk.fits r (mem_append_right _ hr)).short⟩)
    ⟨hk.torn_ok.oneLine, hk.torn_ok.short⟩ hcut hsure
  obtain ⟨kept, rfl, lost, hlost⟩ :
      ∃ records, kept = bodies codec records ∧ records <+: unsure := by
    refine ⟨unsure.take kept.length, ?_, List.take_prefix _ _⟩
    rw [bodies, map_take]
    exact prefix_iff_eq_take.mp hkept
  refine ⟨kept, rest, rfl, ?_, ⟨hrest.1, hrest.2⟩, hk.header_ok, ?_, ?_, hk.durable, ?_,
    fun _ hj => absurd hj (some_ne_none _).symm⟩
  · rw [hbytes, image, bodies, bodies, map_append]
    rfl
  · intro r hr
    refine hk.fits r ?_
    rw [← hlost, ← append_assoc]
    exact mem_append_left _ hr
  · have hvalid := hk.valid
    rw [← hlost, ← append_assoc] at hvalid
    exact (validFrom_append.mp hvalid).1
  · exact fun p hp => hk.recovers p (hp.trans ⟨lost, hlost⟩)

variable (hok : AudioOk s.audio)
include hok

theorem Kept.acts (howner : s.owner = some j) {attempt : Record}
    {result : Except IoError (Option Record)} {left : Journal.Left}
    (hacts : Acts codec ⟨j, file, s.audio⟩ attempt result left) :
    ∃ file' sure' unsure' torn', Kept codec
      { s with
        audio := left.audio
        file := some left.file
        owner := some left.journal
        generations := s.generations.modifyHead fun g =>
          g.note attempt (left.journal.failed && !j.failed) result }
      file' header sure' unsure' torn' := by
  cases hacts with
  | refused e touched =>
    refine ⟨file, sure, unsure, torn, ?_⟩
    rw [modifyHead_note_of_not_failed, ← howner, ← hk.file_eq]
    exact hk.withAudio touched.header_eq touched.syncedEnd_le
  | repeated =>
    refine ⟨file, sure, unsure, torn, ?_⟩
    have hgens : (s.generations.modifyHead fun g =>
        g.note attempt (j.failed && !j.failed) (.ok none)) = s.generations := by
      cases s.generations <;> rfl
    rw [hgens, ← howner, ← hk.file_eq]
    exact hk
  | @accepted audio bytes file' valid touched safe healthy encoded written durable =>
    obtain ⟨rfl, hj, acked, older, hgens⟩ := hk.owner j howner healthy
    obtain ⟨hfits, hvalid⟩ := hk.concat hok hj valid touched safe encoded
    have hkept := hk.withAudio touched.header_eq touched.syncedEnd_le
    have hbytes : file'.bytes = image codec header (sure ++ (unsure ++ [attempt])) := by
      rw [written, hk.bytes, append_nil, (encode_eq_ok encoded).2, ← image_concat, append_assoc]
    refine ⟨file', sure ++ (unsure ++ [attempt]), [], [], rfl, ?_, ⟨nofun, Nat.zero_le _⟩,
      hkept.header_ok, ?_, ?_, ?_, ?_, ?_⟩
    · rw [hbytes, append_nil, append_nil]
    · rwa [append_nil]
    · rwa [append_nil]
    · rw [durable, hbytes]
    · intro kept hprefix
      rw [prefix_nil.mp hprefix, append_nil, ← append_assoc, hgens]
      exact (hgens ▸ hk.recovers unsure (prefix_refl _)).ack attempt
    · intro j' hj' _
      cases hj'
      refine ⟨rfl, ?_, acked ++ [attempt], older, by rw [hgens]; rfl⟩
      rw [append_nil, ← append_assoc, replay_concat, hj, written, length_append]
      cases attempt <;> rfl
  | @overflow audio bytes file' e touched healthy long written =>
    obtain ⟨-, hj, -⟩ := hk.owner j howner healthy
    have hfits := file'.fits
    have hmax : maxFileBytes < u64Max := by decide
    rw [hj] at long
    rw [written, length_append] at hfits
    dsimp only at long hfits
    omega
  | @failed audio bytes part file' e valid touched safe healthy encoded partly written synced =>
    obtain ⟨rfl, hj, acked, older, hgens⟩ := hk.owner j howner healthy
    obtain ⟨hfits, hvalid⟩ := hk.concat hok hj valid touched safe encoded
    obtain ⟨hshort, hline⟩ := encode_eq_ok encoded
    have hkept := hk.withAudio touched.header_eq touched.syncedEnd_le
    have hnote : (s.generations.modifyHead fun g =>
        g.note attempt (true && !j.failed) (.error e)) = ⟨acked, some attempt⟩ :: older := by
      rw [hgens, healthy]
      rfl
    have hrecovers : ∀ kept, kept <+: unsure →
        Recovers (⟨acked, some attempt⟩ :: older) (sure ++ kept) :=
      fun kept hprefix => ((hgens ▸ hk.recovers kept hprefix).fail attempt).1
    have hdurable : (image codec header sure).length ≤ file'.synced := by
      rw [synced]
      exact hk.durable
    rw [hnote]
    rw [hline] at partly
    -- the line is complete, or its newline is missing
    rcases prefix_concat_iff.mp partly with hwhole | hpart
    · refine ⟨file', sure, unsure ++ [attempt], [], rfl, ?_, ⟨nofun, Nat.zero_le _⟩,
        hkept.header_ok, hfits, hvalid, hdurable, ?_, ?_⟩
      · rw [written, hk.bytes, hwhole, append_nil, append_nil, ← append_assoc sure, image_concat]
      · intro kept hprefix
        rcases prefix_concat_iff.mp hprefix with rfl | hprefix
        · rw [← append_assoc]
          exact ((hgens ▸ hk.recovers unsure (prefix_refl _)).fail attempt).2
        · exact hrecovers kept hprefix
      · intro j' hj' hhealthy
        cases hj'
        cases hhealthy
    · refine ⟨file', sure, unsure, part, rfl, ?_,
        ⟨fun h => hcodec.oneLine _ (hpart.subset h), hpart.length_le.trans hshort⟩,
        hkept.header_ok, hk.fits, hkept.valid, hdurable, hrecovers, ?_⟩
      · rw [written, hk.bytes, append_nil]
      · intro j' hj' hhealthy
        cases hj'
        cases hhealthy

/-- Loading the file of a kept journal, whatever the torn rest. -/
theorem Kept.loadBytes :
    loadBytes codec s.audio.header.sessionId s.source s.audio file.bytes =
      .ok (replay header (sure ++ unsure), (image codec header (sure ++ unsure)).length,
        !torn.isEmpty) := by
  rw [hk.bytes]
  exact loadBytes_image hcodec hk.header_ok hok.availableEnd hk.torn_ok hk.fits
    (hk.valid.mono (syncedEnd_le_writtenEnd s.audio))

/-- A load that repairs leaves the complete lines, unless the repair could not start. -/
theorem Kept.repair (howner : s.owner = none) {io : Io} {result : Except IoError Journal}
    (hload : loadWithAudio codec io true s.audio.header.sessionId s.source s.audio file =
      (result, file')) :
    ∃ torn', Kept codec { s with file := some file' } file' header sure unsure torn' ∧
      ∀ j, result = .ok j → torn' = [] ∧
        j = { replay header (sure ++ unsure) with validBytes := file'.bytes.length } := by
  have htake : file.bytes.take (image codec header (sure ++ unsure)).length =
      image codec header (sure ++ unsure) := by
    rw [hk.bytes, take_left]
  have hsame : Kept codec { s with file := some file } file header sure unsure torn :=
    { hk with file_eq := rfl }
  unfold loadWithAudio at hload
  rw [hk.loadBytes hcodec hok] at hload
  dsimp only at hload
  split at hload
  · split at hload
    · cases hload
      exact ⟨torn, hsame, fun _ hj => absurd hj error_ne_ok⟩
    · split at hload
      · cases hload
        exact ⟨[], hk.truncate howner htake (le_rfl), fun _ hj => absurd hj error_ne_ok⟩
      · cases hload
        have hlength : (file.truncate (image codec header (sure ++ unsure)).length).sync.synced =
            (image codec header (sure ++ unsure)).length := congrArg length htake
        refine ⟨[], hk.truncate howner htake (hlength.symm ▸ min_le_right _ _), ?_⟩
        intro j hj
        cases hj
        rw [sync_bytes, truncate_bytes, htake]
        exact ⟨rfl, rfl⟩
  · next hwhole =>
    cases hload
    obtain rfl : torn = [] := by simpa using hwhole
    refine ⟨[], hsame, ?_⟩
    intro j hj
    cases hj
    rw [hk.bytes, append_nil]
    exact ⟨rfl, rfl⟩

theorem Kept.snapshot (io : Io) :
    loadWithAudio codec io false s.audio.header.sessionId s.source s.audio file =
      (.ok { replay header (sure ++ unsure) with
        validBytes := (image codec header (sure ++ unsure)).length }, file) := by
  unfold loadWithAudio
  rw [hk.loadBytes hcodec hok]
  simp

theorem Kept.repair_good : ∃ after, after.bytes = image codec header (sure ++ unsure) ∧
      loadWithAudio codec .good true s.audio.header.sessionId s.source s.audio file =
        (.ok { replay header (sure ++ unsure) with
          validBytes := (image codec header (sure ++ unsure)).length }, after) := by
  unfold loadWithAudio
  rw [hk.loadBytes hcodec hok]
  cases torn with
  | nil => exact ⟨file, by rw [hk.bytes, append_nil], rfl⟩
  | cons b rest =>
    refine ⟨(file.truncate (image codec header (sure ++ unsure)).length).sync, ?_, rfl⟩
    rw [sync_bytes, truncate_bytes, hk.bytes, take_left]

end

/-! ## Every step -/

/-- A call that gets past the identity checks is for this session. -/
theorem session_of_openAudio {sessionId : String} {u : Unit}
    (h : openAudio audio sessionId source = .ok u) :
    sessionId = audio.header.sessionId ∧ replaySource source = audio.header.source := by
  have h := refuseIf_eq_ok.mp h
  simp only [Reader.hasIdentity, Bool.not_eq_false', Bool.and_eq_true, beq_iff_eq] at h
  exact ⟨h.1.symm, h.2.symm⟩

theorem System.load_cases (io : Io) (repair : Bool) (sessionId : String) :
    (∃ e, s.load codec io repair sessionId = (.error e, s)) ∨
      ∃ file result file', s.file = some file ∧ sessionId = s.audio.header.sessionId ∧
        (repair = true → s.owner = none) ∧
        loadWithAudio codec io repair sessionId s.source s.audio file = (result, file') ∧
        s.load codec io repair sessionId = (result, { s with file := some file' }) := by
  unfold load
  split
  · exact .inl ⟨_, rfl⟩
  rename_i hready
  obtain ⟨_, hopen, hready⟩ := bind_eq_ok.mp hready
  obtain ⟨_, -, hlock⟩ := bind_eq_ok.mp hready
  have hlock := refuseIf_eq_ok.mp hlock
  cases hfile : s.file with
  | none => exact .inl ⟨_, rfl⟩
  | some file =>
    refine .inr ⟨file, _, _, rfl, (session_of_openAudio hopen).1, ?_, rfl, rfl⟩
    simpa using hlock

theorem AudioOk.crash (h : AudioOk audio) (keep : ℕ) :
    AudioOk { audio with file := audio.file.crash keep } := by
  have hlength := (audio.file.crash_bytes keep).length_le
  have hclock := h.clock
  unfold writtenEnd at hclock
  refine ⟨h.header, ?_⟩
  show audio.firstSample + ((audio.file.crash keep).bytes.length - audio.audioOffset) / 2 ≤ u64Max
  omega

section
variable (hinv : Inv codec s)
include hinv

theorem Inv.create (io : Io) (sessionId : String)
    (initial : EngineDescriptor) (fallback : Option LocalPlan) :
    Inv codec (s.create codec io sessionId initial fallback).2 := by
  obtain ⟨hbeside, hkept⟩ := hinv
  unfold System.create
  split
  · exact ⟨hbeside, hkept⟩
  rename_i hready
  cases hfile : s.file with
  | some file => exact ⟨hbeside, hkept⟩
  | none =>
    -- before its creation returns there is nothing to keep
    have hfresh : s.created = true → False := by
      intro hcreated
      obtain ⟨file, _, _, _, _, hk⟩ := hkept hcreated
      rw [hk.file_eq] at hfile
      cases hfile
    dsimp only
    have happend := append_cases codec io
      (.fromHeader ⟨1, sessionId, s.source, s.audio.firstSample, initial, fallback⟩) .empty
      (.opened ⟨1, sessionId, s.source, s.audio.firstSample, initial, fallback⟩)
    split
    · exact ⟨hbeside, fun hcreated => (hfresh hcreated).elim⟩
    rename_i j file hres
    rw [hres] at happend
    split
    · refine ⟨hbeside, fun _ => ?_⟩
      obtain ⟨_, hfallback, hready⟩ := bind_eq_ok.mp hready
      obtain ⟨_, hengine, hready⟩ := bind_eq_ok.mp hready
      obtain ⟨_, hopen, -⟩ := bind_eq_ok.mp hready
      cases happend with
      | done healthy encoded written durable =>
        obtain ⟨hshort, hline⟩ := encode_eq_ok encoded
        have hbytes : file.bytes =
            image codec ⟨1, sessionId, s.source, s.audio.firstSample, initial, fallback⟩ [] := by
          rw [written, hline]
          simp [image, bodies, empty]
        refine ⟨file, ⟨1, sessionId, s.source, s.audio.firstSample, initial, fallback⟩, [], [],
          [], rfl, by simpa using hbytes, ⟨nofun, Nat.zero_le _⟩, ?_, nofun, trivial, ?_, ?_, ?_⟩
        · exact ⟨rfl, (session_of_openAudio hopen).1, rfl, rfl, hengine, hfallback, hshort,
            finite_of_validateFallback hfallback⟩
        · rw [durable, hbytes]
        · intro kept hprefix
          rw [prefix_nil.mp hprefix]
          exact ⟨[], rfl, .inl rfl⟩
        · intro j' hj' _
          cases hj'
          refine ⟨rfl, ?_, [], [], rfl⟩
          rw [hbytes, hline]
          simp [replay, fromHeader, image, bodies]
    · exact ⟨hbeside, fun hcreated => (hfresh hcreated).elim⟩

/-- A step keeps the invariant if it keeps what is on the two files. -/
theorem Inv.map {t : System} (hbeside : Beside t.audio t.source)
    (hcreated : t.created = s.created)
    (h : ∀ {file header sure unsure torn}, Kept codec s file header sure unsure torn →
      ∃ file sure unsure torn, Kept codec t file header sure unsure torn) : Inv codec t := by
  refine ⟨hbeside, fun ht => ?_⟩
  obtain ⟨file, header, sure, unsure, torn, hk⟩ := hinv.2 (hcreated ▸ ht)
  obtain ⟨file', sure', unsure', torn', hk'⟩ := h hk
  exact ⟨file', header, sure', unsure', torn', hk'⟩

theorem Inv.withAudio (hok : AudioOk audio)
    (hheader : audio.header = s.audio.header) (hle : syncedEnd s.audio ≤ syncedEnd audio) :
    Inv codec { s with audio } :=
  hinv.map ⟨hok, hheader ▸ hinv.1.leg⟩ rfl fun hk => ⟨_, _, _, _, hk.withAudio hheader hle⟩

theorem Inv.capture (pcm : List (BitVec 16)) (stop : Option ℕ) :
    Inv codec (s.capture pcm stop) := by
  unfold System.capture
  split
  · next last haligned hlast =>
    split
    · obtain ⟨part, hpart, hbytes, hsynced⟩ := s.audio.file.writeAll_bytes (encodePcm pcm) stop
      have hlength := hpart.length_le
      rw [encodePcm_length] at hlength
      obtain ⟨hoff, hend, -⟩ := Reader.availableEnd_eq_ok.mp hlast
      refine hinv.withAudio ⟨?_, ?_⟩ rfl ?_
      · exact hinv.1.ok.header.trans (le_of_eq hsynced.symm)
      · show s.audio.firstSample + (_ - s.audio.audioOffset) / 2 ≤ u64Max
        rw [hbytes, length_append]
        omega
      · show s.audio.firstSample + _ ≤ s.audio.firstSample + (_ - s.audio.audioOffset) / 2
        rw [hsynced]
    · exact hinv
  · exact hinv

theorem Inv.trim : Inv codec s.trim := by
  unfold System.trim
  split
  · next haligned =>
    obtain ⟨length, hlength, hodd⟩ := bind_eq_ok.mp haligned
    obtain ⟨hoff, rfl⟩ := checkedSub_eq_some.mp (okOr_eq_ok.mp hlength)
    have hodd : ((s.audio.file.bytes.length - s.audio.audioOffset) % 2 == 0) = false :=
      Except.ok.inj hodd
    have hodd : (s.audio.file.bytes.length - s.audio.audioOffset) % 2 = 1 := by
      simpa using hodd
    have hsynced := s.audio.file.synced_le
    have hheader := hinv.1.ok.header
    have hclock := hinv.1.ok.clock
    unfold writtenEnd at hclock
    refine hinv.withAudio ⟨?_, ?_⟩ rfl ?_
    · show s.audio.audioOffset ≤ min s.audio.file.synced (s.audio.file.bytes.length - 1)
      omega
    · show s.audio.firstSample + ((s.audio.file.bytes.take _).length - s.audio.audioOffset) / 2 ≤ _
      rw [length_take]
      omega
    · show s.audio.firstSample + (s.audio.file.synced - s.audio.audioOffset) / 2 ≤
        s.audio.firstSample +
          (min s.audio.file.synced (s.audio.file.bytes.length - 1) - s.audio.audioOffset) / 2
      omega
  · exact hinv

theorem Inv.close : Inv codec { s with owner := none } :=
  hinv.map hinv.1 rfl fun hk => ⟨_, _, _, _, hk.of_owner_none⟩

variable (hcodec : Faithful codec)
include hcodec

theorem Inv.operate {attempt : Journal → Record}
    {call : Journal.Left → Except IoError (Option Record) × Journal.Left}
    (hcall : ∀ left, Acts codec left (attempt left.journal) (call left).1 (call left).2) :
    Inv codec (s.operate attempt call) := by
  unfold System.operate
  split
  · next j file howner hfile =>
    have hacts := hcall ⟨j, file, s.audio⟩
    refine hinv.map ⟨hacts.touched.ok hinv.1.ok, hacts.touched.header_eq ▸ hinv.1.leg⟩ rfl
      fun hk => ?_
    obtain rfl := mem_unique hfile hk.file_eq
    exact hk.acts hcodec hinv.1.ok howner hacts
  · exact hinv

theorem Inv.reopen (io : Io) (sessionId : String) : Inv codec (s.reopen codec io sessionId).2 := by
  unfold System.reopen
  rcases s.load_cases io true sessionId with
    ⟨e, hload⟩ | ⟨file, result, file', hfile, rfl, howner, hout, hload⟩
  · rw [hload]
    exact hinv
  · rw [hload]
    cases result with
    | error e =>
      refine hinv.map hinv.1 rfl fun hk => ?_
      obtain rfl := mem_unique hfile hk.file_eq
      obtain ⟨torn', hk', -⟩ := hk.repair hcodec hinv.1.ok (howner rfl) hout
      exact ⟨file', _, _, torn', hk'⟩
    | ok j =>
      refine hinv.map hinv.1 rfl fun hk => ?_
      obtain rfl := mem_unique hfile hk.file_eq
      obtain ⟨torn', hk', hj⟩ := hk.repair hcodec hinv.1.ok (howner rfl) hout
      obtain ⟨rfl, rfl⟩ := hj j rfl
      refine ⟨file', _, _, [], { hk' with
        file_eq := rfl, recovers := fun p hp => (hk'.recovers p hp).open, owner := ?_ }⟩
      intro j' hj' _
      cases hj'
      exact ⟨rfl, rfl, [], s.generations, rfl⟩

theorem Inv.snapshot (io : Io) (sessionId : String) :
    Inv codec (s.snapshot codec io sessionId).2 := by
  unfold System.snapshot
  rcases s.load_cases io false sessionId with
    ⟨e, hload⟩ | ⟨file, result, file', hfile, rfl, -, hout, hload⟩
  · rw [hload]
    exact hinv
  · rw [hload]
    have hsame : Inv codec { s with file := some file' } := by
      refine hinv.map hinv.1 rfl fun hk => ?_
      obtain rfl := mem_unique hfile hk.file_eq
      rw [hk.snapshot hcodec hinv.1.ok io] at hout
      cases hout
      exact ⟨_, _, _, _, { hk with file_eq := rfl }⟩
    cases result with
    | error e => exact hsame
    | ok j =>
      dsimp only
      split
      · refine hsame.map hsame.1 rfl fun hk => ?_
        cases hk.file_eq
        exact ⟨_, _, _, _, hk.sync⟩
      · exact hsame

theorem Inv.crash (keepJournal keepAudio : ℕ) :
    Inv codec (s.crash keepJournal keepAudio) := by
  have haudio := hinv.withAudio (hinv.1.ok.crash keepAudio) rfl (le_rfl)
  refine haudio.map haudio.1 rfl fun {file} _ _ _ _ hk => ?_
  obtain ⟨kept, rest, hk'⟩ := hk.crash hcodec keepJournal
  refine ⟨file.crash keepJournal, _, kept, rest, { hk' with file_eq := ?_ }⟩
  show s.file.map _ = _
  rw [show s.file = some file from hk.file_eq]
  rfl

theorem Inv.step (event : Event) :
    Inv codec (step codec s event) := by
  cases event with
  | create sessionId initial fallback io => exact hinv.create io sessionId initial fallback
  | commit epoch fromSample throughSample segments io =>
    exact hinv.operate hcodec fun left =>
      record_acts codec io left epoch fromSample throughSample segments none
  | skip epoch fromSample throughSample reason io =>
    exact hinv.operate hcodec fun left =>
      record_acts codec io left epoch fromSample throughSample [] (some reason)
  | switch engine reason io =>
    exact hinv.operate hcodec fun left => switch_acts codec io left engine reason
  | reopen sessionId io => exact hinv.reopen hcodec io sessionId
  | snapshot sessionId io => exact hinv.snapshot hcodec io sessionId
  | close => exact hinv.close
  | capture pcm stop => exact hinv.capture pcm stop
  | trim => exact hinv.trim
  | crash keepJournal keepAudio => exact hinv.crash hcodec keepJournal keepAudio

end

/-! ## Recovery -/

/-- A source whose audio has been created and whose journal has not. -/
structure Fresh (s : System) : Prop where
  audio : AudioOk s.audio
  leg : s.audio.header.source = replaySource s.source
  file : s.file = none
  owner : s.owner = none
  created : s.created = false

theorem run_inv (hcodec : Faithful codec) (hs : Fresh s) (events : List Event) :
    Inv codec (run codec s events) := by
  have hstart : Inv codec s := ⟨⟨hs.audio, hs.leg⟩, fun h => by
    rw [hs.created] at h
    cases h⟩
  exact foldlRecOn events (step codec) hstart fun t ht event _ => ht.step hcodec event

theorem image_getLast? (codec : Codec Entry) (header : Header) (records : List Record) :
    (image codec header records).getLast? = some newline := by
  rcases eq_nil_or_concat' records with rfl | ⟨records, r, rfl⟩
  · simp [image, bodies]
  · rw [image_concat, ← append_assoc, getLast?_concat]

theorem System.load_eq (io : Io) {repair : Bool} (hbeside : Beside s.audio s.source)
    (hfile : s.file = some file) (hlock : repair = true → s.owner = none) :
    s.load codec io repair s.audio.header.sessionId =
      ((loadWithAudio codec io repair s.audio.header.sessionId s.source s.audio file).1,
        { s with file := some (loadWithAudio codec io repair s.audio.header.sessionId
          s.source s.audio file).2 }) := by
  have hid : s.audio.hasIdentity s.audio.header.sessionId (replaySource s.source) = true := by
    simp [Reader.hasIdentity, hbeside.leg]
  have hfree : (repair && s.owner.isSome) = false := by
    cases repair with
    | false => rfl
    | true => rw [hlock rfl]; rfl
  unfold load openAudio
  rw [hid, hfree]
  simp only [refuseIf, hfile]
  rfl

/-- What a reopening recovers from the files of `s`, and a snapshot reads from them. -/
structure Recovery (codec : Codec Entry) (s : System) (j : Journal) (before after : DurableFile)
    (torn : List UInt8) : Prop where
  file : s.file = some before
  reopens : s.reopen codec .good s.audio.header.sessionId = (.ok j, { s with
    file := some after, owner := some j, generations := ⟨[], none⟩ :: s.generations })
  records : Recovers s.generations j.accepted
  commits : j.commits = commitsOf j.accepted
  epochs : j.epochs = initialEpoch j.header :: switchesOf j.accepted
  repairs : before.bytes = after.bytes ++ torn
  whole : after.bytes.getLast? = some newline
  incomplete : newline ∉ torn
  snapshots : ∀ owner, ({ s with owner } : System).snapshot codec .good
      s.audio.header.sessionId =
    (.ok ⟨j.epochs, j.header.fallback, j.validBytes, j.commits⟩,
      { s with owner, file := some before.sync })

/-- From the return of the creation on, after any operations with any outcomes and any crash:
    reopening succeeds, and `Recovery` says with what. -/
theorem reopen_after_crash {codec : Codec Entry} (hcodec : Faithful codec) (start : System)
    (hstart : Fresh start) (events : List Event)
    (hcreated : (run codec start events).created = true) (keepJournal keepAudio : ℕ) :
    ∃ j before after torn,
      Recovery codec ((run codec start events).crash keepJournal keepAudio) j before after
        torn := by
  have hinv := (run_inv hcodec hstart events).crash hcodec keepJournal keepAudio
  have howner : ((run codec start events).crash keepJournal keepAudio).owner = none := rfl
  generalize hs : (run codec start events).crash keepJournal keepAudio = s at hinv howner
  have hcreated : s.created = true := by rw [← hs]; exact hcreated
  obtain ⟨hbeside, hkept⟩ := hinv
  obtain ⟨file, header, sure, unsure, torn, hk⟩ := hkept hcreated
  obtain ⟨after, hafter, hload⟩ := hk.repair_good hcodec hbeside.ok
  have hreopen : s.load codec .good true s.audio.header.sessionId = _ :=
    System.load_eq .good hbeside hk.file_eq fun _ => howner
  rw [hload] at hreopen
  have hsound := System.load_sound (congrArg Prod.fst hreopen)
  refine ⟨_, file, after, torn, hk.file_eq, ?_, ?_, hsound.commits, hsound.epochs, ?_, ?_,
    hk.torn_ok.oneLine, ?_⟩
  · unfold System.reopen
    rw [hreopen]
  · rw [show accepted _ = (replay header (sure ++ unsure)).accepted from rfl, replay_accepted]
    exact hk.recovers unsure (prefix_refl _)
  · rw [hk.bytes, hafter]
  · rw [hafter, image_getLast?]
  · intro owner
    have hsnapshot : ({ s with owner := owner } : System).load codec .good false
        s.audio.header.sessionId = _ :=
      System.load_eq (s := { s with owner := owner }) .good hbeside hk.file_eq nofun
    unfold System.snapshot
    rw [hsnapshot]
    rw [hk.snapshot hcodec hbeside.ok .good]
    rfl

theorem sampleLines_tabled : Tabled sampleLines :=
  ⟨by decide +kernel, by decide +kernel, by decide +kernel⟩

/-- A whole line is parsed as the table does it. -/
theorem sampleCodec_fromSlice (line : List UInt8) : sampleCodec.fromSlice (line ++ [newline]) =
      (tableCodec sampleLines).fromSlice (line ++ [newline]) := by
  simp [sampleCodec, tableCodec, newline]

theorem sampleCodec_faithful : Faithful sampleCodec where
  roundTrip e _ :=
    (sampleCodec_fromSlice _).trans (tableCodec_line sampleLines_tabled e)
  oneLine := tableCodec_oneLine sampleLines_tabled

/-- The last line of the small recording is cut after 60 bytes. -/
theorem reopen_after_crash_sample : (run sampleCodec sampleSystem (sampleEvents.take 4 ++
        [.skip 1 32 64 "helper failed" { Io.good with write := some 60 }])).created = true ∧
      ∃ j before after torn, Recovery sampleCodec ((run sampleCodec sampleSystem
        (sampleEvents.take 4 ++ [.skip 1 32 64 "helper failed"
          { Io.good with write := some 60 }])).crash 1000 0) j before after torn := by
  have hcreated : (run sampleCodec sampleSystem (sampleEvents.take 4 ++
      [.skip 1 32 64 "helper failed" { Io.good with write := some 60 }])).created = true := by
    decide +kernel
  have hfresh : Fresh sampleSystem :=
    ⟨⟨by decide +kernel, by decide +kernel⟩, rfl, rfl, rfl, rfl⟩
  exact ⟨hcreated, reopen_after_crash sampleCodec_faithful sampleSystem hfresh _ hcreated 1000 0⟩

/-- A crash ten bytes into the header: the creation has not returned, and the journal is
    refused from then on. -/
theorem reopen_torn_header : (((run sampleCodec sampleSystem [.create "s" sampleEngine none
          { Io.good with write := some 10, remove := false }]).crash 10 0).reopen sampleCodec
        .good "s").1.map (fun _ => ()) = .error (invalid "missing coverage header") := by
  decide +kernel

end FlyOnTheWall.Coverage
