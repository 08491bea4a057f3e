/-
  What the processing evidence proves.

  Assumed of the hash, where samples are to be recovered from it: it is injective.

  * `validate_iff`: which evidence files are accepted beside which audio, for every content
    of the two files.
  * `Damage`: the ways to damage an accepted pair, and `damage_refused`.
-/
import FlyOnTheWall.Failover.Processing
import FlyOnTheWall.Pipeline.ReplayRun

namespace FlyOnTheWall.Replay.Reader

open Lib List

/-! ## Samples of a stream -/

/-- Every whole sample past the header. -/
def samples (r : Reader) : List (BitVec 16) := samplesOf (r.file.bytes.drop r.audioOffset)

variable (i : ℕ) (bytes : List UInt8)

theorem samplesOf_drop : samplesOf (bytes.drop (i * 2)) = (samplesOf bytes).drop i := by
  induction i generalizing bytes with
  | zero => simp
  | succ i ih =>
    rw [show (i + 1) * 2 = i * 2 + 1 + 1 by omega]
    match bytes with
    | [] => rfl
    | [_] => simp [samplesOf]
    | low :: high :: rest =>
      rw [drop_succ_cons, drop_succ_cons, ih]
      rfl

theorem samplesOf_take : samplesOf (bytes.take (i * 2)) = (samplesOf bytes).take i := by
  induction i generalizing bytes with
  | zero => simp [samplesOf]
  | succ i ih =>
    rw [show (i + 1) * 2 = i * 2 + 1 + 1 by omega]
    rcases bytes with _ | ⟨low, _ | ⟨high, rest⟩⟩
    · rfl
    · rfl
    · rw [take_succ_cons, take_succ_cons, samplesOf, ih]
      rfl

theorem samplesOf_encodePcm (pcm : List (BitVec 16)) : samplesOf (encodePcm pcm) = pcm := by
  induction pcm with
  | nil => rfl
  | cons s pcm ih =>
    have hs : s.extractLsb' 8 8 ++ s.extractLsb' 0 8 = s := by
      rw [BitVec.extractLsb'_append_extractLsb'_eq_extractLsb' (by rfl)]
      exact BitVec.extractLsb'_eq_self
    show (s.extractLsb' 8 8 ++ s.extractLsb' 0 8) :: samplesOf (encodePcm pcm) = s :: pcm
    rw [hs, ih]

theorem encodePcm_samplesOf (bytes : List UInt8) (h : bytes.length % 2 = 0) :
    encodePcm (samplesOf bytes) = bytes := by
  match bytes with
  | [] => rfl
  | [_] => cases h
  | low :: high :: rest =>
    have hrest := encodePcm_samplesOf rest (by simp only [length_cons] at h; omega)
    have hlow : (high.toBitVec ++ low.toBitVec).extractLsb' 0 8 = low.toBitVec :=
      BitVec.extractLsb'_append_eq_right
    have hhigh : (high.toBitVec ++ low.toBitVec).extractLsb' 8 8 = high.toBitVec :=
      BitVec.extractLsb'_append_eq_left
    rw [samplesOf, encodePcm, flatMap_cons, hlow, hhigh]
    show low :: high :: encodePcm (samplesOf rest) = _
    rw [hrest]

variable {r : Reader} {last : ℕ}

theorem samples_length (hlast : r.availableEnd = .ok last) :
    last = r.firstSample + r.samples.length := by
  rw [(availableEnd_eq_ok.mp hlast).2.1, samples, samplesOf_length, length_drop]

/-- A read that returns as much as was asked for. -/
theorem readFrom_full_iff {n k : ℕ} {pcm : List (BitVec 16)} (hlast : r.availableEnd = .ok last) :
    (r.readFrom n k = .ok pcm ∧ pcm.length = k) ↔
      1 ≤ k ∧ k ≤ maxReadSamples ∧ r.firstSample ≤ n ∧ n + k ≤ last ∧
        pcm = (r.samples.drop (n - r.firstSample)).take k := by
  obtain ⟨hoff, hend, hmax⟩ := availableEnd_eq_ok.mp hlast
  have hsamples := samples_length hlast
  have hfits := r.file.fits
  have hu : maxFileBytes < u64Max := by decide
  have hread : ∀ count, samplesOf ((r.file.bytes.drop
      ((n - r.firstSample) * 2 + r.audioOffset)).take (count * 2)) =
        (r.samples.drop (n - r.firstSample)).take count := by
    intro count
    rw [samplesOf_take, samples, ← samplesOf_drop, drop_drop, add_comm]
  simp only [readFrom, bind_eq_ok, refuseIf_eq_ok, okOr_eq_ok, checkedSub_eq_some, hlast,
    Except.ok.injEq, Option.bind_eq_some_iff, checkedMul_eq_some, checkedAdd_eq_some,
    Bool.or_eq_false_iff, beq_eq_false_iff_ne, decide_eq_false_iff_not, not_lt]
  constructor
  · rintro ⟨⟨-, ⟨hpos, hle⟩, _, ⟨hfirst, rfl⟩, _, rfl, _, ⟨hroom, rfl⟩, _,
      ⟨_, ⟨-, rfl⟩, -, rfl⟩, hpcm⟩, hlen⟩
    cases hpcm
    rw [hread] at hlen ⊢
    rw [length_take, length_drop] at hlen
    refine ⟨by omega, hle, hfirst, by omega, ?_⟩
    rw [Nat.min_eq_right (by omega)]
  · rintro ⟨hpos, hle, hfirst, hroom, rfl⟩
    refine ⟨⟨(), ⟨by omega, hle⟩, _, ⟨hfirst, rfl⟩, _, rfl, _, ⟨by omega, rfl⟩, _,
      ⟨_, ⟨by omega, rfl⟩, by omega, rfl⟩, ?_⟩, ?_⟩
    · rw [hread, Nat.min_eq_right (by omega)]
      rfl
    · rw [length_take, length_drop]
      omega

end FlyOnTheWall.Replay.Reader

namespace FlyOnTheWall.Processing

open Lib Replay List Option

variable {format : Format} {session : String} {source : ReplaySource} {audio : Reader}

/-! ## What the validator accepts -/

/-- The file is a declaration and records, each a whole line that decodes. -/
def Reads (format : Format) (bytes : List UInt8) (header : Header) (records : List Interval) :
    Prop :=
  ∃ first bodies, bytes = frames newline (first :: bodies) ∧
    (∀ body ∈ first :: bodies, newline ∉ body ∧ body.length < maxRecord) ∧
    format.header.fromSlice (first ++ [newline]) = some header ∧
    bodies.map (fun body => format.interval.fromSlice (body ++ [newline])) = records.map some

/-- The declaration speaks of this stream. -/
structure Declares (format : Format) (session : String) (source : ReplaySource) (audio : Reader)
    (header : Header) : Prop where
  version : header.version = 1
  session : header.session = session
  source : header.source = source
  first : header.firstSample = audio.firstSample
  bound : ∃ fingerprint, header.descriptor.fingerprint format = .ok fingerprint ∧
    audio.header.processingId = some fingerprint

variable {header : Header}

theorem Declares.congr {audio' : Reader} (h : Declares format session source audio header)
    (hsame : audio'.header = audio.header) :
    Declares format session source audio' header where
  version := h.version
  session := h.session
  source := h.source
  first := h.first.trans (congrArg Replay.Header.firstSample hsame.symm)
  bound := hsame ▸ h.bound

/-- The form of the records: their sizes, and epochs that never fall. -/
structure Formed (records : List Interval) : Prop where
  sizes : ∀ i ∈ records, i.stop - i.start ≤ 16000
  epochs : records.Pairwise fun i k => i.epoch ≤ k.epoch

variable {records : List Interval} {i : Interval}

theorem Formed.concat (h : Formed records) (hsize : i.stop - i.start ≤ 16000)
    (hepoch : ∀ e ∈ records.getLast?.map Interval.epoch, e ≤ i.epoch) :
    Formed (records ++ [i]) where
  sizes := by
    intro k hk
    rcases mem_append.mp hk with hk | hk
    · exact h.sizes k hk
    · rw [mem_singleton.mp hk]
      exact hsize
  epochs := by
    rw [← pairwise_map (f := Interval.epoch), ← isChain_iff_pairwise, map_append, isChain_append]
    refine ⟨isChain_iff_pairwise.mpr (pairwise_map.mpr h.epochs), isChain_singleton _, ?_⟩
    intro e he k hk
    rw [getLast?_map] at he
    cases hk
    exact hepoch e he

/-- The records lie end to end over the retained samples, and each hash is that of exactly the
    samples its record covers. -/
structure Covers (format : Format) (audio : Reader) (records : List Interval) : Prop where
  tiles : Tiles Interval.start Interval.stop audio.firstSample records
    (audio.firstSample + audio.samples.length)
  hashes : ∀ i ∈ records, i.pcmSha256 =
    digest format ((audio.samples.drop (i.start - audio.firstSample)).take (i.stop - i.start))

/-- The stream is this source's, and its last sample is whole. -/
structure Retained (session : String) (source : ReplaySource) (audio : Reader) : Prop where
  identity : audio.hasIdentity session source = true
  whole : ∃ last, savedEnd audio = .ok last

variable {rest bytes : List UInt8}

theorem readRecord_none : readRecord rest = .ok none ↔ rest = [] := by
  unfold readRecord
  dsimp only
  constructor
  · intro h
    split at h
    · next hempty =>
      exact takeLine_eq_nil (isEmpty_iff.mp hempty)
    · split at h <;> cases h
  · rintro rfl
    rfl

theorem readRecord_some {line after : List UInt8} : readRecord rest = .ok (some (line, after)) ↔
      ∃ body, line = body ++ [newline] ∧ newline ∉ body ∧ body.length < maxRecord ∧
        rest = body ++ newline :: after := by
  constructor
  · intro h
    unfold readRecord at h
    dsimp only at h
    split at h
    · cases h
    split at h
    · cases h
    · next hok =>
      have hline := some.inj (Except.ok.inj h)
      rw [Bool.not_eq_true, Bool.or_eq_false_iff, bne_eq_false_iff_eq] at hok
      obtain ⟨hlong, hlast⟩ := hok
      have hlong := of_decide_eq_false hlong
      have hall := takeLine_append newline (maxRecord + 1) rest
      obtain ⟨body, hbody, hsep⟩ := takeLine_terminated hlast
      rw [hline] at hbody hlong hall
      subst hbody
      rw [length_append, length_singleton] at hlong
      refine ⟨body, rfl, hsep, by omega, ?_⟩
      rw [← hall, append_assoc]
      rfl
  · rintro ⟨body, rfl, hsep, hshort, rfl⟩
    unfold readRecord
    rw [takeLine_frame newline after hsep (Nat.lt_succ_of_lt hshort)]
    have hempty : (body ++ [newline]).isEmpty = false := by
      cases body <;> rfl
    have hlong : ((body ++ [newline]).length > maxRecord ||
        (body ++ [newline]).getLast? != some newline) = false := by
      rw [getLast?_append, Bool.or_eq_false_iff]
      refine ⟨decide_eq_false ?_, by rfl⟩
      rw [length_append, length_singleton]
      omega
    dsimp only
    rw [hempty, hlong]
    rfl

variable {p q : Progress}

/-- The loop decodes the lines and checks them one after another. -/
theorem validateLoop_iff : validateLoop format audio p rest = .ok q ↔
      ∃ bodies, ∃ records : List Interval, rest = frames newline bodies ∧
        (∀ body ∈ bodies, newline ∉ body ∧ body.length < maxRecord) ∧
        bodies.map (fun body => format.interval.fromSlice (body ++ [newline])) =
          records.map some ∧
        records.foldlM (checkInterval format audio) p = .ok q := by
  constructor
  · intro h
    induction p, rest using validateLoop.induct format audio with
    | case1 | case3 | case4 =>
      rw [validateLoop] at h
      split at h <;> simp_all
    | case2 p rest hread =>
      obtain rfl := readRecord_none.mp hread
      rw [validateLoop] at h
      split at h
      · cases h
      · cases h
        exact ⟨[], [], rfl, nofun, rfl, rfl⟩
      · simp_all
    | case5 p rest line after hread i hdecode p' hcheck ih =>
      have hrest : validateLoop format audio p' after = .ok q := by
        rw [validateLoop] at h
        split at h <;> simp_all
      obtain ⟨bodies, records, rfl, hbodies, hmap, hfold⟩ := ih hrest
      obtain ⟨body, rfl, hsep, hshort, rfl⟩ := readRecord_some.mp hread
      refine ⟨body :: bodies, i :: records, by rw [frames_cons], ?_, ?_, ?_⟩
      · intro b hb
        rcases mem_cons.mp hb with rfl | hb
        · exact ⟨hsep, hshort⟩
        · exact hbodies b hb
      · rw [map_cons, map_cons, hdecode, hmap]
      · rw [foldlM_cons, hcheck, ok_bind, hfold]
  · rintro ⟨bodies, records, rfl, hbodies, hmap, hfold⟩
    induction bodies generalizing p records with
    | nil =>
      obtain rfl : records = [] := by
        cases records with
        | nil => rfl
        | cons i records => cases hmap
      have hread : readRecord (frames newline []) = .ok none := readRecord_none.mpr rfl
      rw [validateLoop]
      split
      · simp_all
      · exact hfold
      · simp_all
    | cons body bodies ih =>
      obtain _ | ⟨i, records⟩ := records
      · cases hmap
      rw [map_cons, map_cons, cons.injEq] at hmap
      obtain ⟨p', hcheck, hfold⟩ := bind_eq_ok.mp hfold
      obtain ⟨hsep, hshort⟩ := hbodies body mem_cons_self
      have hread : readRecord (frames newline (body :: bodies)) =
          .ok (some (body ++ [newline], frames newline bodies)) :=
        readRecord_some.mpr ⟨body, rfl, hsep, hshort, by rw [frames_cons]⟩
      have hrest := ih records (fun b hb => hbodies b (mem_cons_of_mem body hb)) hmap.2 hfold
      rw [validateLoop]
      split
      · simp_all
      · simp_all
      · next line after hread' =>
        rw [hread] at hread'
        cases hread'
        rw [hmap.1]
        dsimp only
        rw [hcheck]
        exact hrest

/-- The samples a record covers. -/
def covered (audio : Reader) (i : Interval) : List (BitVec 16) :=
  (audio.samples.drop (i.start - audio.firstSample)).take (i.stop - i.start)

theorem any_lt_eq_false {old : Option ℕ} {epoch : ℕ} :
    old.any (epoch < ·) = false ↔ ∀ e ∈ old, e ≤ epoch := by
  cases old <;> simp

variable {last : ℕ}

theorem checkInterval_iff (hlast : audio.availableEnd = .ok last) :
    checkInterval format audio p i = .ok q ↔
      i.start = p.snapshot.endSample ∧ i.start < i.stop ∧ i.stop - i.start ≤ 16000 ∧
        (∀ e ∈ p.epoch, e ≤ i.epoch) ∧ audio.firstSample ≤ i.start ∧ i.stop ≤ last ∧
        i.pcmSha256 = digest format (covered audio i) ∧
        q = ⟨p.snapshot.count i (i.stop - i.start), some i.epoch⟩ := by
  simp only [checkInterval, bind_eq_ok, refuseIf_eq_ok, okOr_eq_ok, filter_eq_some_iff,
    checkedSub_eq_some, Bool.and_eq_true, decide_eq_true_eq, Bool.or_eq_false_iff,
    bne_eq_false_iff_eq, any_lt_eq_false]
  constructor
  · rintro ⟨_, ⟨⟨hle, rfl⟩, hsize⟩, _, ⟨hstart, hepoch⟩, pcm, hread, _, ⟨hlen, hhash⟩, h⟩
    obtain rfl := Except.ok.inj h
    obtain ⟨-, -, hfirst, hroom, rfl⟩ := (Reader.readFrom_full_iff hlast).mp ⟨hread, hlen⟩
    exact ⟨hstart, by omega, hsize.2, hepoch, hfirst, by omega, hhash.symm, rfl⟩
  · rintro ⟨hstart, hlt, hsize, hepoch, hfirst, hroom, hhash, rfl⟩
    obtain ⟨hread, hlen⟩ := (Reader.readFrom_full_iff hlast).mpr
      ⟨by omega, hsize, hfirst, (by omega : i.start + (i.stop - i.start) ≤ last), rfl⟩
    exact ⟨_, ⟨⟨by omega, rfl⟩, by omega, hsize⟩, (), ⟨hstart, hepoch⟩, _, hread, (),
      ⟨hlen, hhash.symm⟩, rfl⟩

/-- What a snapshot says after these records. -/
def summary (s : Snapshot) (records : List Interval) : Snapshot :=
  records.foldl (fun s i => s.count i (i.stop - i.start)) s

theorem count_endSample (s : Snapshot) (i : Interval) (n : ℕ) :
    (s.count i n).endSample = i.stop := by
  unfold Snapshot.count
  split <;> rfl

variable {snap : Snapshot}

/-- The checks of all records, from any progress that has not passed the end. -/
theorem foldlM_checkInterval_iff (hlast : audio.availableEnd = .ok last)
    (hfirst : audio.firstSample ≤ p.snapshot.endSample) :
    (∃ q, records.foldlM (checkInterval format audio) p = .ok q ∧
        q.snapshot.endSample = last ∧ q.snapshot = snap) ↔
      Tiles Interval.start Interval.stop p.snapshot.endSample records last ∧
        (∀ i ∈ records, i.pcmSha256 = digest format (covered audio i)) ∧
        (∀ i ∈ records, i.stop - i.start ≤ 16000) ∧
        (p.epoch.toList ++ records.map Interval.epoch).IsChain (· ≤ ·) ∧
        snap = summary p.snapshot records := by
  induction records generalizing p with
  | nil =>
    constructor
    · rintro ⟨q, hq, hend, rfl⟩
      cases hq
      refine ⟨hend, nofun, nofun, ?_, rfl⟩
      cases p.epoch <;> simp
    · rintro ⟨hend, -, -, -, rfl⟩
      exact ⟨p, rfl, hend, rfl⟩
  | cons i records ih =>
    have hchain : ∀ epochs : List ℕ, (p.epoch.toList ++ i.epoch :: epochs).IsChain (· ≤ ·) ↔
        (∀ e ∈ p.epoch, e ≤ i.epoch) ∧ (i.epoch :: epochs).IsChain (· ≤ ·) := by
      cases p.epoch with
      | none => simp
      | some e => simp [isChain_cons_cons]
    constructor
    · rintro ⟨q, hq, hend, rfl⟩
      obtain ⟨p', hcheck, hq⟩ := bind_eq_ok.mp hq
      obtain ⟨hstart, hlt, hsize, hepoch, hin, -, hhash, rfl⟩ :=
        (checkInterval_iff hlast).mp hcheck
      obtain ⟨htiles, hhashes, hsizes, hepochs, hsnap⟩ :=
        (ih (by rw [count_endSample]; omega)).mp ⟨q, hq, hend, rfl⟩
      rw [count_endSample] at htiles
      refine ⟨⟨hstart, hstart ▸ hlt, htiles⟩, ?_, ?_, ?_, hsnap⟩
      · exact forall_mem_cons.mpr ⟨hhash, hhashes⟩
      · exact forall_mem_cons.mpr ⟨hsize, hsizes⟩
      · exact (hchain _).mpr ⟨hepoch, hepochs⟩
    · rintro ⟨⟨hstart, hlt, htiles⟩, hhashes, hsizes, hepochs, hsnap⟩
      obtain ⟨hepoch, hepochs⟩ := (hchain _).mp hepochs
      obtain ⟨hhash, hhashes⟩ := forall_mem_cons.mp hhashes
      obtain ⟨hsize, hsizes⟩ := forall_mem_cons.mp hsizes
      have hle := htiles.le
      have hcheck : checkInterval format audio p i = .ok
          ⟨p.snapshot.count i (i.stop - i.start), some i.epoch⟩ :=
        (checkInterval_iff hlast).mpr ⟨hstart, hstart ▸ hlt, hsize, hepoch, hstart ▸ hfirst, hle,
          hhash, rfl⟩
      obtain ⟨q, hq, hend, hq'⟩ := (ih (p := ⟨p.snapshot.count i (i.stop - i.start),
          some i.epoch⟩) (by rw [count_endSample]; omega)).mpr
        ⟨by rw [count_endSample]; exact htiles, hhashes, hsizes, hepochs, hsnap⟩
      refine ⟨q, ?_, hend, hq'⟩
      rw [foldlM_cons, hcheck, ok_bind, hq]

theorem savedEnd_eq_ok : savedEnd audio = .ok last ↔
    audio.availableEnd = .ok last ∧ (audio.file.bytes.length - audio.audioOffset) % 2 = 0 := by
  simp only [savedEnd, Reader.aligned, Reader.audioBytes, bind_eq_ok, okOr_eq_ok,
    checkedSub_eq_some, refuseIf_eq_ok]
  constructor
  · rintro ⟨whole, ⟨_, ⟨hle, rfl⟩, hwhole⟩, _, heven, hend⟩
    cases hwhole
    exact ⟨hend, by simpa using heven⟩
  · rintro ⟨hend, heven⟩
    refine ⟨true, ⟨_, ⟨(Reader.availableEnd_eq_ok.mp hend).1, rfl⟩, ?_⟩, (), rfl, hend⟩
    rw [heven]
    rfl

theorem readHeader_iff : readHeader format session source audio bytes = .ok (header, rest) ↔
      ∃ first, bytes = first ++ newline :: rest ∧ newline ∉ first ∧ first.length < maxRecord ∧
        format.header.fromSlice (first ++ [newline]) = some header ∧
        Declares format session source audio header := by
  simp only [readHeader, bind_eq_ok, refuseIf_eq_ok, okOr_eq_ok, Bool.or_eq_false_iff,
    bne_eq_false_iff_eq]
  constructor
  · rintro ⟨_, hrecord, ⟨line, after⟩, rfl, decoded, hdecode, _, -, fingerprint, hfingerprint,
      _, ⟨⟨⟨⟨hversion, hsession⟩, hsource⟩, hfirst⟩, hbound⟩, h⟩
    obtain ⟨rfl, rfl⟩ := Prod.mk.inj (Except.ok.inj h)
    obtain ⟨first, rfl, hsep, hshort, rfl⟩ := readRecord_some.mp hrecord
    exact ⟨first, rfl, hsep, hshort, hdecode, hversion, hsession, hsource, hfirst, fingerprint,
      hfingerprint, hbound⟩
  · rintro ⟨first, rfl, hsep, hshort, hdecode, hversion, hsession, hsource, hfirst, fingerprint,
      hfingerprint, hbound⟩
    obtain ⟨_, hvalid, -⟩ := bind_eq_ok.mp hfingerprint
    exact ⟨_, readRecord_some.mpr ⟨first, rfl, hsep, hshort, rfl⟩, _, rfl, header, hdecode, _,
      hvalid, fingerprint, hfingerprint, (), ⟨⟨⟨⟨hversion, hsession⟩, hsource⟩, hfirst⟩, hbound⟩,
      rfl⟩

/-- The bytes of an evidence file, against the audio. -/
theorem validateBytes_iff : validateBytes format session source audio bytes = .ok snap ↔
      (∃ last, savedEnd audio = .ok last) ∧ ∃ header records,
        Reads format bytes header records ∧ Declares format session source audio header ∧
        Formed records ∧ Covers format audio records ∧
        snap = summary header.begin.snapshot records := by
  simp only [validateBytes, bind_eq_ok, refuseIf_eq_ok, bne_eq_false_iff_eq, Prod.exists,
    readHeader_iff, validateLoop_iff]
  constructor
  · rintro ⟨header, _, ⟨first, rfl, hsep, hshort, hdecode, hdeclares⟩, q,
      ⟨bodies, records, rfl, hbodies, hmap, hfold⟩, last, hend, _, hcover, h⟩
    obtain rfl := Except.ok.inj h
    have hlast := (savedEnd_eq_ok.mp hend).1
    obtain ⟨htiles, hhashes, hsizes, hepochs, hsnap⟩ :=
      (foldlM_checkInterval_iff hlast (le_of_eq hdeclares.first.symm)).mp
        ⟨q, hfold, hcover, rfl⟩
    refine ⟨⟨last, hend⟩, header, records, ⟨first, bodies, by rw [frames_cons], ?_, hdecode, hmap⟩,
      hdeclares, ⟨hsizes, ?_⟩, ⟨?_, hhashes⟩, hsnap⟩
    · exact forall_mem_cons.mpr ⟨⟨hsep, hshort⟩, hbodies⟩
    · exact pairwise_map.mp (isChain_iff_pairwise.mp hepochs)
    · rw [← Reader.samples_length hlast, ← hdeclares.first]
      exact htiles
  · rintro ⟨⟨last, hend⟩, header, records, ⟨first, bodies, rfl, hbodies, hdecode, hmap⟩,
      hdeclares, hformed, hcovers, rfl⟩
    have hlast := (savedEnd_eq_ok.mp hend).1
    obtain ⟨⟨hsep, hshort⟩, hbodies⟩ := forall_mem_cons.mp hbodies
    have htiles := hcovers.tiles
    rw [← Reader.samples_length hlast, ← hdeclares.first] at htiles
    obtain ⟨q, hfold, hcover, hsnap⟩ :=
      (foldlM_checkInterval_iff (p := header.begin) hlast (le_of_eq hdeclares.first.symm)).mpr
        ⟨htiles, hcovers.hashes, hformed.sizes,
          isChain_iff_pairwise.mpr (pairwise_map.mpr hformed.epochs), rfl⟩
    refine ⟨header, frames newline bodies, ⟨first, by rw [frames_cons], hsep, hshort, hdecode,
      hdeclares⟩, q, ⟨bodies, records, rfl, hbodies, hmap, hfold⟩, last, hend, (), hcover, ?_⟩
    rw [hsnap]
    rfl

/-- Exactly which evidence is accepted beside which audio. -/
theorem validate_iff {evidence : Evidence} :
    validate format session source evidence audio = .ok (some snap) ↔
      Retained session source audio ∧ ∃ f header records, evidence = .file f ∧
        Reads format f.bytes header records ∧ Declares format session source audio header ∧
        Formed records ∧ Covers format audio records ∧
        snap = summary header.begin.snapshot records := by
  constructor
  · intro h
    obtain ⟨hsame, h⟩ := refuseIf_bind_ok.mp h
    obtain ⟨_, h⟩ := bind_rest h
    cases evidence with
    | file f =>
      obtain ⟨_, hbytes, h⟩ := bind_eq_ok.mp h
      obtain rfl := some.inj (Except.ok.inj h)
      obtain ⟨hwhole, header, records, hrest⟩ := validateBytes_iff.mp hbytes
      exact ⟨⟨by simpa using hsame, hwhole⟩, f, header, records, rfl, hrest⟩
    | absent | irregular | unreadable =>
      obtain ⟨_, h⟩ := bind_rest h
      cases h
  · rintro ⟨hretained, f, header, records, rfl, hrest⟩
    refine refuseIf_bind_ok.mpr ⟨(by rw [hretained.identity]; rfl), ?_⟩
    refine bind_eq_ok.mpr ⟨true, rfl, ?_⟩
    exact bind_eq_ok.mpr ⟨snap, validateBytes_iff.mpr ⟨hretained.whole, header, records, hrest⟩,
      rfl⟩

/-! ## Damage -/

/-- The validator accepts this evidence beside this audio. -/
def Accepted (format : Format) (session : String) (source : ReplaySource) (f : DurableFile)
    (audio : Reader) : Prop :=
  ∃ snap, validate format session source (.file f) audio = .ok (some snap)

theorem Accepted.covers {f : DurableFile} (h : Accepted format session source f audio) :
    ∃ header records, Reads format f.bytes header records ∧ Covers format audio records ∧
      Declares format session source audio header := by
  obtain ⟨snap, h⟩ := h
  obtain ⟨-, _, header, records, hf, hreads, hdeclares, -, hcovers, -⟩ := validate_iff.mp h
  cases hf
  exact ⟨header, records, hreads, hcovers, hdeclares⟩

theorem Covers.certifies (h : Covers format audio records) :
    Certifies (digest format) Interval.start Interval.stop Interval.pcmSha256
      audio.firstSample records audio.samples :=
  certifies_iff.mpr ⟨h.tiles, h.hashes⟩

variable {header' : Header} {records' : List Interval}

/-- The records of a file that goes on are the first of the records of the longer one. -/
theorem Reads.isPrefix {bytes' : List UInt8} (h : Reads format bytes header records)
    (h' : Reads format bytes' header' records') (hle : bytes <+: bytes') :
    records <+: records' ∧ (records.length = records'.length → bytes = bytes') := by
  obtain ⟨first, bodies, rfl, hbodies, -, hmap⟩ := h
  obtain ⟨first', bodies', rfl, hbodies', -, hmap'⟩ := h'
  obtain ⟨hfirst, hrest⟩ := cons_prefix_cons.mp
    (frames_isPrefix (fun b hb => (hbodies b hb).1) (fun b hb => (hbodies' b hb).1) hle)
  have hlength := congrArg length hmap
  have hlength' := congrArg length hmap'
  rw [length_map, length_map] at hlength hlength'
  constructor
  · obtain ⟨more, rfl⟩ := hrest
    rw [map_append, hmap] at hmap'
    refine (prefix_map_iff_of_injective (some_injective Interval)).mp ?_
    exact ⟨_, hmap'⟩
  · intro hcount
    rw [hfirst, hrest.eq_of_length (by omega)]

theorem Reads.unique (h : Reads format bytes header records)
    (h' : Reads format bytes header' records') : records = records' := by
  have hle := (h.isPrefix h' (prefix_refl _)).1
  exact hle.eq_of_length_le (h'.isPrefix h (prefix_refl _)).1.length_le

/-- What is done to an evidence file, or to the samples beside it. -/
inductive Damage (format : Format) : DurableFile × Reader → DurableFile × Reader → Prop
  | truncated {f f' audio} (cut : f'.bytes <+: f.bytes) (shorter : f'.bytes ≠ f.bytes) :
      Damage format (f, audio) (f', audio)
  | extended {f f' audio} (more : f.bytes <+: f'.bytes) (longer : f'.bytes ≠ f.bytes) :
      Damage format (f, audio) (f', audio)
  | reordered {f f' audio header header' records records'}
      (reads : Reads format f.bytes header records)
      (reads' : Reads format f'.bytes header' records') (perm : records'.Perm records)
      (moved : records' ≠ records) : Damage format (f, audio) (f', audio)
  | edited {f f' audio header header' before after i i'}
      (reads : Reads format f.bytes header (before ++ i :: after))
      (reads' : Reads format f'.bytes header' (before ++ i' :: after))
      (changed : ¬(i'.start = i.start ∧ i'.stop = i.stop ∧ i'.pcmSha256 = i.pcmSha256)) :
      Damage format (f, audio) (f', audio)
  | samples {f audio audio'} (header : audio'.header = audio.header)
      (offset : audio'.audioOffset = audio.audioOffset)
      (changed : audio'.file.bytes.drop audio.audioOffset ≠
        audio.file.bytes.drop audio.audioOffset) : Damage format (f, audio) (f, audio')

theorem hexDigit_inj {m n : ℕ} (hm : m < 16) (hn : n < 16) (h : hexDigit m = hexDigit n) :
    m = n := by
  have hall : ∀ a b : Fin 16, hexDigit a = hexDigit b → a = b := by decide
  exact congrArg Fin.val (hall ⟨m, hm⟩ ⟨n, hn⟩ h)

theorem hex_injective : Function.Injective hex := by
  intro xs ys h
  replace h := String.ofList_injective h
  induction xs generalizing ys with
  | nil =>
    cases ys with
    | nil => rfl
    | cons y ys => cases h
  | cons x xs ih =>
    cases ys with
    | nil => cases h
    | cons y ys =>
      simp only [flatMap_cons, cons_append, nil_append, cons.injEq] at h
      obtain ⟨hhigh, hlow, hrest⟩ := h
      have hx := x.toNat_lt
      have hy := y.toNat_lt
      have hhigh := hexDigit_inj (by omega) (by omega) hhigh
      have hlow := hexDigit_inj (by omega) (by omega) hlow
      have hxy : x = y := UInt8.toNat_inj.mp (by omega)
      rw [hxy, ih hrest]

theorem digest_injective (hinj : Function.Injective format.sha256) :
    Function.Injective (digest format) := by
  intro xs ys h
  have hbytes := hinj (hex_injective h)
  rw [← Reader.samplesOf_encodePcm xs, hbytes, Reader.samplesOf_encodePcm]

/-- Damage of any kind is noticed. -/
theorem damage_refused (hinj : Function.Injective format.sha256) {x y : DurableFile × Reader}
    (hx : Accepted format session source x.1 x.2) (hdamage : Damage format x y) :
    ¬ Accepted format session source y.1 y.2 := by
  intro hy
  obtain ⟨header, records, hreads, hcovers, hdeclares⟩ := hx.covers
  obtain ⟨header', records', hreads', hcovers', hdeclares'⟩ := hy.covers
  cases hdamage with
  | truncated cut shorter =>
    obtain ⟨⟨more, rfl⟩, hsame⟩ := hreads'.isPrefix hreads cut
    obtain rfl := hcovers'.certifies.length_unique hcovers.certifies
    exact shorter (hsame (by simp))
  | extended more longer =>
    obtain ⟨⟨more, rfl⟩, hsame⟩ := hreads.isPrefix hreads' more
    obtain rfl := hcovers.certifies.length_unique hcovers'.certifies
    exact longer (hsame (by simp)).symm
  | reordered reads reads' perm moved =>
    rw [reads.unique hreads, reads'.unique hreads'] at perm moved
    exact moved (hcovers.certifies.order_unique hcovers'.certifies perm)
  | edited reads reads' changed =>
    rw [← reads.unique hreads] at hcovers
    rw [← reads'.unique hreads'] at hcovers'
    exact changed (hcovers.certifies.record_unique hcovers'.certifies)
  | @samples f audio audio' same offset changed =>
    obtain rfl := hreads.unique hreads'
    have hfirst : audio'.firstSample = audio.firstSample := congrArg Replay.Header.firstSample same
    have hcert := hcovers'.certifies
    rw [hfirst] at hcert
    have hsamples := hcovers.certifies.data_unique (digest_injective hinj) hcert
    have heven : ∀ {r : Reader}, Accepted format session source f r →
        (r.file.bytes.drop r.audioOffset).length % 2 = 0 := by
      rintro r ⟨snap, h⟩
      obtain ⟨last, hend⟩ := (validate_iff.mp h).1.whole
      rw [length_drop]
      exact (savedEnd_eq_ok.mp hend).2
    refine changed ?_
    calc audio'.file.bytes.drop audio.audioOffset
        = encodePcm audio'.samples := by
          rw [← offset, Reader.samples, Reader.encodePcm_samplesOf _ (heven hy)]
      _ = encodePcm audio.samples := congrArg encodePcm hsamples.symm
      _ = audio.file.bytes.drop audio.audioOffset := Reader.encodePcm_samplesOf _ (heven hx)

end FlyOnTheWall.Processing
