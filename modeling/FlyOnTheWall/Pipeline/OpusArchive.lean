/-
  Whole archives: pushes of any sizes, then `finish`, then the inspector.

  * `encodeAll_ok`: every sequence of pushes can be closed, and what the closed stream holds.
  * `archive_reads_back`: the inspector accepts the file and derives the number of pushed
    samples from its clock, while the 64-bit clock of the container has room for them.
  * `archive_clock_ends`: past that room it cannot.
  * `archive_exact`: an accepted file is one stream, page after page, and nothing else.
-/
import FlyOnTheWall.Pipeline.WalEncode

namespace FlyOnTheWall.Opus
open Lib Lib.Ogg List Writer Inspect

variable {σ δ : Type} {lib : Libopus σ δ} {rate : ℕ}

/-! ## Writing -/

/-- A writer from its creation to `finish`. -/
def encodeAll (lib : Libopus σ δ) (rate : ℕ) (pushes : List (List Int16)) :
    Except OpusError (OpusStats × List Packet) := do
  let w ← Writer.create lib rate
  let w ← pushes.foldlM (fun w pcm => w.pushI16 lib pcm) w
  w.finish lib

/-- The samples of all pushes are counted, however they are cut. -/
theorem pushes_ok {works : lib.Works rate} (hrate : rate ∈ supportedRates)
    (pushes : List (List Int16)) {w : Writer σ} {ps : List Packet} {d : δ} {n : ℕ}
    (hw : w.Holds works n ps d) :
    ∃ w' ps' d', pushes.foldlM (fun w pcm => w.pushI16 lib pcm) w = .ok w' ∧
      w'.Holds works (n + pushes.flatten.length) ps' d' := by
  induction pushes generalizing w ps d n with
  | nil => exact ⟨w, ps, d, rfl, hw⟩
  | cons pcm pushes ih =>
    obtain ⟨w1, ps1, d1, hpush, hw1, -⟩ := pushI16_ok hrate hw pcm
    obtain ⟨w', ps', d', hrest, hw'⟩ := ih hw1
    refine ⟨w', ps', d', ?_, ?_⟩
    · rw [foldlM_cons, hpush, ok_bind]
      exact hrest
    · rw [flatten_cons, length_append, ← add_assoc]
      exact hw'

/-- Every sequence of pushes is closed with one last granule position inside the last packet. -/
theorem encodeAll_ok (works : lib.Works rate) (hrate : rate ∈ supportedRates)
    (pushes : List (List Int16)) :
    ∃ stats qs last, encodeAll lib rate pushes =
        .ok (stats, headersOf (skipOf works) rate ++ (qs ++ [last])) ∧
      Closed lib works.dec (u64 (skipOf works +
        u64 pushes.flatten.length * (granuleRate / rate))) qs last ∧
      960 * qs.length ≤ skipOf works + pushes.flatten.length * (granuleRate / rate) ∧
      skipOf works + pushes.flatten.length * (granuleRate / rate) ≤
        960 * (qs.length + 1) := by
  obtain ⟨w, hcreate, hw, -⟩ := create_ok works hrate
  obtain ⟨w', ps, d, hpushes, hw'⟩ := pushes_ok hrate pushes hw
  rw [zero_add] at hw'
  obtain ⟨stats, qs, last, hfinish, -, -, hclosed, hlow, hhigh⟩ := finish_ok hrate hw'
  refine ⟨stats, qs, last, ?_, hclosed, hlow, hhigh⟩
  rw [encodeAll, hcreate, ok_bind, hpushes, ok_bind]
  exact hfinish

/-! ## Reading back -/

/-- Every sequence of pushes can be closed. While the clock has room for the pre-skip, the
    samples and a closing frame, and the file can be that long, the inspector accepts the file
    and the duration it derives is the number of samples pushed. -/
theorem archive_reads_back (works : lib.Works rate) (hrate : rate ∈ supportedRates)
    (muxer : Muxer) (serial : ℕ) (hserial : serial < 2 ^ 32) (pushes : List (List Int16)) :
    ∃ stats packets, encodeAll lib rate pushes = .ok (stats, packets) ∧
      (Writer.skipOf works + pushes.flatten.length * (granuleRate / rate) + 960 < u64Max →
        (muxer.mux serial packets).length ≤ maxFileBytes →
        ∃ archive, inspectCompleteArchive lib (muxer.mux serial packets) = .ok archive ∧
          archive.inputRateHz = rate ∧
          archive.pcmSamples48k = pushes.flatten.length * (granuleRate / rate)) := by
  obtain ⟨stats, qs, last, hok, hclosed, hlow, hhigh⟩ := encodeAll_ok works hrate pushes
  refine ⟨stats, _, hok, fun hclock hfile => ?_⟩
  have hfile : (muxer.mux serial
      (headersOf (skipOf works) rate ++ (qs ++ [last]))).length ≤ u64Max :=
    le_trans hfile (by decide)
  exact ⟨_, inspect_archive_fits works hrate muxer hserial hclosed hlow hhigh hclock hfile, rfl,
    rfl⟩

/-- Three samples in two pushes. -/
theorem archive_reads_back_three :
    ∃ stats packets archive, encodeAll Wal.briefOpus 48000 [[1, 2], [3]] = .ok (stats, packets) ∧
      inspectCompleteArchive Wal.briefOpus (Muxer.filling.mux 7 packets) = .ok archive ∧
      archive.pcmSamples48k = 3 := by
  obtain ⟨stats, packets, hok, hback⟩ := archive_reads_back
    (Wal.briefOpusWorks 48000 (by decide)) (by decide) Muxer.filling 7 (by decide) [[1, 2], [3]]
  have hshort : ∀ r, encodeAll Wal.briefOpus 48000 [[1, 2], [3]] = .ok r →
      (Muxer.filling.mux 7 r.2).length ≤ maxFileBytes := by
    have hrun : (encodeAll Wal.briefOpus 48000 [[1, 2], [3]]).toOption.all
        (fun r => (Muxer.filling.mux 7 r.2).length ≤ maxFileBytes) = true := by
      decide +kernel
    intro r hr
    rw [hr] at hrun
    exact of_decide_eq_true hrun
  obtain ⟨archive, hread, -, hsamples⟩ := hback (by decide) (hshort _ hok)
  exact ⟨stats, packets, archive, hok, hread, hsamples⟩

/-! ## The end of the clock -/

variable {bytes : List UInt8}

theorem readHeader_granule {rest : List UInt8} {h : PageHeader}
    (hread : readHeader bytes = .ok (h, rest)) : h.granule < 2 ^ 64 := by
  obtain ⟨_, hread⟩ := bind_rest hread
  obtain ⟨⟨raw, afterRaw⟩, -, hread⟩ := bind_eq_ok.mp hread
  obtain ⟨_, hread⟩ := bind_rest hread
  obtain ⟨rfl, -⟩ := Prod.mk.inj (Except.ok.inj hread)
  have hslice : (slice raw 6 14).length ≤ 8 := by
    rw [slice, length_drop, length_take]
    omega
  refine Nat.lt_of_lt_of_le (leNat_lt _) ?_
  exact Nat.le_trans (Nat.pow_le_pow_right (by decide) hslice) (by decide)

variable {st : Inspect δ} {archive : CompleteArchive}

/-- What the packets and the clock of a page do not touch. -/
def Inspect.place (st : Inspect δ) : Option ℕ × ℕ := (st.serial, st.sequence)

/-- The page marked last is the one that ends the inspection. -/
theorem close_eq_ok {before : ℕ} {h : PageHeader} {outcome : Outcome δ}
    (hclose : st.close before h = .ok outcome) :
    (∃ st', outcome = .more st' ∧ h.eos = false ∧ st'.place = st.place) ∨
    ∃ archive, outcome = .done archive ∧ h.eos = true ∧
      archive.pcmSamples48k = h.granule - st.skip := by
  unfold close at hclose
  split at hclose
  · obtain ⟨hflags, hclose⟩ := refuseIf_bind_ok.mp hclose
    cases hclose
    simp only [Bool.or_eq_false_iff] at hflags
    exact .inl ⟨st, rfl, hflags.1.2, rfl⟩
  · split at hclose
    · obtain ⟨hflags, hclose⟩ := refuseIf_bind_ok.mp hclose
      cases hclose
      simp only [Bool.or_eq_false_iff] at hflags
      exact .inl ⟨st, rfl, hflags.1, rfl⟩
    · obtain ⟨_, hclose⟩ := bind_rest hclose
      split at hclose
      · next heos =>
        obtain ⟨_, _, hclose⟩ := bind_rest2 hclose
        cases hclose
        exact .inl ⟨_, rfl, by simpa using heos, rfl⟩
      · next heos =>
        obtain ⟨_, _, hclose⟩ := bind_rest2 hclose
        cases hclose
        exact .inr ⟨_, rfl, by simpa using heos, rfl⟩

/-- An accepted file is read page by page, to the one that ends it. -/
theorem inspectFrom_rec {motive : Inspect δ → List UInt8 → Prop}
    (done : ∀ st bytes, st.page lib bytes = .ok (.done archive, []) → motive st bytes)
    (more : ∀ st bytes st' rest, st.page lib bytes = .ok (.more st', rest) → motive st' rest →
      motive st bytes)
    (h : inspectFrom lib st bytes = .ok archive) : motive st bytes := by
  induction st, bytes using inspectFrom.induct lib with
  | case1 | case4 =>
    rw [inspectFrom] at h
    split at h <;> simp_all
  | case2 st bytes st' rest hpage ih => exact more _ _ _ _ hpage (ih (inspectFrom_more hpage ▸ h))
  | case3 st bytes read rest hpage hempty =>
    obtain rfl := isEmpty_iff.mp hempty
    obtain rfl : read = archive := Except.ok.inj ((inspectFrom_done hpage).symm.trans h)
    exact done _ _ hpage

/-- What the inspector reads is a 64-bit number of ticks. -/
theorem inspectFrom_lt (h : inspectFrom lib st bytes = .ok archive) :
    archive.pcmSamples48k < 2 ^ 64 := by
  refine inspectFrom_rec (motive := fun _ _ => archive.pcmSamples48k < 2 ^ 64)
    (fun st bytes hpage => ?_) (fun _ _ _ _ _ ih => ih) h
  obtain ⟨h, after, laces, body, total, named, fed, hheader, -, -, -, -, hclose⟩ :=
    page_eq_ok hpage
  have hgranule := readHeader_granule hheader
  rcases close_eq_ok hclose with ⟨_, hmore, -⟩ | ⟨read, hdone, -, hpcm⟩
  · cases hmore
  · cases hdone
    omega

/-- `2 ^ 64` samples, in as many pushes as each holds: the file is closed, and no reading of its
    clock gives that number back. -/
theorem archive_clock_ends :
    ∃ stats packets pushes, encodeAll Wal.briefOpus 48000 pushes = .ok (stats, packets) ∧
      ¬ ∃ archive, inspectCompleteArchive Wal.briefOpus (Muxer.filling.mux 7 packets) =
          .ok archive ∧ archive.pcmSamples48k = pushes.flatten.length := by
  obtain ⟨stats, qs, last, hok, -⟩ := encodeAll_ok (Wal.briefOpusWorks 48000 (by decide))
    (by decide) (replicate (2 ^ 32) (replicate (2 ^ 32) 0))
  refine ⟨stats, _, _, hok, ?_⟩
  rintro ⟨archive, hread, hsamples⟩
  have hlt := inspectFrom_lt hread
  rw [hsamples, length_flatten, map_replicate, sum_replicate, length_replicate] at hlt
  exact absurd hlt (by decide)

/-! ## One stream and nothing else -/

/-- Pages of the stream `serial`, numbered from `k` on: the first of a stream and no other is
    marked first, the last one and no other is marked last, and nothing follows it. -/
inductive Pages (serial : ℕ) : ℕ → List UInt8 → Prop
  | page {k : ℕ} {bytes after rest laces body : List UInt8} {h : PageHeader}
      (header : readHeader bytes = .ok (h, after))
      (content : readBody h after = .ok (laces, body, rest)) (same : h.serial = serial)
      (sequence : h.sequence = k % 2 ^ 32) (first : (h.flags &&& 2 != 0) = (k == 0))
      (last : h.eos = true → rest = []) (next : h.eos = false → Pages serial (k + 1) rest) :
      Pages serial k bytes

namespace Inspect
variable {st' : Inspect δ} {h : PageHeader} {laces body part : List UInt8}

theorem acceptPacket_place (hpacket : st.acceptPacket lib = .ok st') : st'.place = st.place := by
  unfold acceptPacket at hpacket
  split at hpacket
  · obtain ⟨_, _, hpacket⟩ := bind_rest2 hpacket
    obtain ⟨_, hpacket⟩ := bind_rest hpacket
    cases hpacket
    rfl
  · obtain ⟨_, hpacket⟩ := bind_rest hpacket
    cases hpacket
    rfl
  · obtain ⟨_, _, hpacket⟩ := bind_rest2 hpacket
    obtain ⟨_, _, hpacket⟩ := bind_rest2 hpacket
    cases hpacket
    rfl

theorem feed_place (hfeed : st.feed lib laces body = .ok st') : st'.place = st.place := by
  induction laces generalizing st body with
  | nil =>
    cases hfeed
    rfl
  | cons length laces ih =>
    obtain ⟨laced, hlace, hfeed⟩ := bind_eq_ok.mp hfeed
    refine (ih hfeed).trans ?_
    obtain ⟨_, hlace⟩ := bind_rest hlace
    split at hlace
    · cases hlace
      rfl
    · obtain ⟨accepted, haccepted, hlace⟩ := bind_eq_ok.mp hlace
      cases hlace
      have hkept := acceptPacket_place haccepted
      exact hkept

theorem identify_eq_ok (hidentify : st.identify h = .ok st') :
    h.sequence = st.sequence ∧ (∀ s ∈ st.serial, s = h.serial) ∧
      (h.flags &&& 2 != 0) = st.serial.isNone ∧
      st'.place = (some h.serial, (st.sequence + 1) % 2 ^ 32) := by
  obtain ⟨hname, hidentify⟩ := refuseIf_bind_ok.mp hidentify
  obtain ⟨_, hidentify⟩ := bind_rest hidentify
  cases hidentify
  simp only [Bool.or_eq_false_iff, bne_eq_false_iff_eq, Option.any_eq_false] at hname
  exact ⟨hname.1.1, by simpa using hname.1.2, hname.2, rfl⟩

end Inspect

/-- The pages from the `k`-th on, where the inspector stands before it. -/
theorem inspectFrom_pages (hread : inspectFrom lib st bytes = .ok archive) {k : ℕ}
    (hsequence : st.sequence = k % 2 ^ 32) (hfirst : st.serial.isNone = (k == 0)) :
    ∃ serial, (∀ s ∈ st.serial, s = serial) ∧ Pages serial k bytes := by
  refine inspectFrom_rec (motive := fun st bytes => ∀ k, st.sequence = k % 2 ^ 32 →
    st.serial.isNone = (k == 0) → ∃ serial, (∀ s ∈ st.serial, s = serial) ∧ Pages serial k bytes)
    ?_ ?_ hread k hsequence hfirst
  · intro st bytes hpage k hsequence hfirst
    obtain ⟨h, after, laces, body, total, named, fed, hheader, hnamed, hbody, -, -, hclose⟩ :=
      page_eq_ok hpage
    obtain ⟨hseq, hserial, hflag, -⟩ := identify_eq_ok hnamed
    refine ⟨h.serial, hserial, .page hheader hbody rfl (hseq.trans hsequence)
      (hflag.trans hfirst) (fun _ => rfl) fun heos => ?_⟩
    rcases close_eq_ok hclose with ⟨_, hmore, -⟩ | ⟨_, -, hlast, -⟩
    · cases hmore
    · rw [hlast] at heos
      cases heos
  · intro st bytes st' rest hpage ih k hsequence hfirst
    obtain ⟨h, after, laces, body, total, named, fed, hheader, hnamed, hbody, -, hfed, hclose⟩ :=
      page_eq_ok hpage
    obtain ⟨hseq, hserial, hflag, hplace⟩ := identify_eq_ok hnamed
    rcases close_eq_ok hclose with ⟨_, hmore, heos, hkept⟩ | ⟨_, hdone, -⟩
    · cases hmore
      obtain ⟨hstserial, hstseq⟩ := Prod.mk.inj
        ((hkept.trans (feed_place hfed)).trans hplace)
      obtain ⟨serial, hsame, hpages⟩ := ih (k + 1) (by omega) (by simp [hstserial])
      obtain rfl : h.serial = serial := hsame _ hstserial
      refine ⟨h.serial, hserial, .page hheader hbody rfl (hseq.trans hsequence)
        (hflag.trans hfirst) (fun hlast => ?_) fun _ => hpages⟩
      rw [hlast] at heos
      cases heos
    · cases hdone

theorem inspectFrom_extended (hread : inspectFrom lib st bytes = .ok archive) {more : List UInt8}
    (hmore : more ≠ []) (a : CompleteArchive) : inspectFrom lib st (bytes ++ more) ≠ .ok a := by
  refine inspectFrom_rec (motive := fun st bytes => inspectFrom lib st (bytes ++ more) ≠ .ok a)
    (fun st bytes hpage => ?_) (fun st bytes st' rest hpage ih => ?_) hread
  · obtain ⟨used, -, rfl, hcut⟩ := page_cut hpage
    rw [append_nil, inspectFrom]
    split <;> simp_all
  · obtain ⟨used, -, rfl, hcut⟩ := page_cut hpage
    rw [append_assoc, inspectFrom_more (hcut _)]
    exact ih

/-- The file of an accepted archive is one stream, whose pages are numbered in order from the
    first to the one marked last; cut short or with anything behind it, it is refused. -/
theorem archive_exact (hread : inspectCompleteArchive lib bytes = .ok archive) :
    (∀ part more, part ++ more = bytes → more ≠ [] → ∀ a, inspectCompleteArchive lib part ≠ .ok a) ∧
    (∀ more, more ≠ [] → ∀ a, inspectCompleteArchive lib (bytes ++ more) ≠ .ok a) ∧
    ∃ serial, Pages serial 0 bytes := by
  refine ⟨?_, fun more => inspectFrom_extended hread, ?_⟩
  · rintro part more rfl hmore a hpart
    exact inspectFrom_extended hpart hmore archive hread
  · obtain ⟨serial, -, hpages⟩ := inspectFrom_pages (k := 0) hread rfl rfl
    exact ⟨serial, hpages⟩

/-- The file of three samples. -/
theorem archive_exact_three :
    ∃ bytes archive, inspectCompleteArchive Wal.briefOpus bytes = .ok archive ∧
      archive.pcmSamples48k = 3 ∧ (∃ serial, Pages serial 0 bytes) ∧
      ∀ a, inspectCompleteArchive Wal.briefOpus (bytes ++ [0]) ≠ .ok a := by
  obtain ⟨stats, qs, last, -, hclosed, hlow, hhigh⟩ := encodeAll_ok
    (Wal.briefOpusWorks 48000 (by decide)) (by decide) [[1, 2], [3]]
  obtain ⟨bytes, -, -, hread⟩ := inspect_archive (Wal.briefOpusWorks 48000 (by decide))
    (by decide) Muxer.filling (show 7 < 2 ^ 32 by decide) hclosed hlow hhigh (by decide)
  obtain ⟨-, hextended, hpages⟩ := archive_exact hread
  exact ⟨bytes, _, hread, rfl, hpages, hextended [0] (by decide)⟩

end FlyOnTheWall.Opus
