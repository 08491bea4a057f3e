/-
  The inspector accepts every stream of 20 ms packets, however it is cut into pages.

  * `Speech`: the segments still to come, from a packet that may have begun already.
  * `Inspect.parts_speech`: one page of such segments is taken, and what its end says about
    the page's clock.
  * `inspectFrom_speech`: the run over all audio pages, by induction on the pages.
  * `inspect_stream`: the two header pages in front.
-/
import FlyOnTheWall.Pipeline.OpusPages

namespace FlyOnTheWall.Opus
open Lib Lib.Ogg List Option Inspect

variable {σ δ : Type} {lib : Libopus σ δ}

/-! ## Segments to come -/

/-- The segments that are left when a decoder in state `d` has decoded `k` packets and `acc` of
    the next one has been read. The stream has `total` packets; the last one carries the
    granule position `final`. -/
inductive Speech (lib : Libopus σ δ) (final total : ℕ) :
    δ → List UInt8 → ℕ → List Segment → Prop
  | part {d acc k s rest} (ends : s.ends = none) (full : s.body.length = 255)
      (fits : acc.length + s.body.length ≤ maxPacketBytes)
      (next : Speech lib final total d (acc ++ s.body) k rest) :
      Speech lib final total d acc k (s :: rest)
  | packet {d d' acc k s rest finish} (ends : s.ends = some (960 * (k + 1), finish))
      (more : finish ≠ .endStream) (short : s.body.length < 255)
      (fits : acc.length + s.body.length ≤ maxPacketBytes) (ne : acc ++ s.body ≠ [])
      (decodes : lib.decode d (acc ++ s.body) = (960, d'))
      (next : Speech lib final total d' [] (k + 1) rest) :
      Speech lib final total d acc k (s :: rest)
  | last {d d' acc k s} (ends : s.ends = some (final, .endStream))
      (short : s.body.length < 255) (fits : acc.length + s.body.length ≤ maxPacketBytes)
      (ne : acc ++ s.body ≠ []) (decodes : lib.decode d (acc ++ s.body) = (960, d'))
      (all : k + 1 = total) :
      Speech lib final total d acc k [s]

namespace Speech
variable {final total : ℕ} {d : δ} {acc : List UInt8} {k : ℕ} {segs : List Segment}

section
variable (h : Speech lib final total d acc k segs)
include h

theorem ne_nil : segs ≠ [] := by
  cases h <;> exact cons_ne_nil _ _

theorem lt_total : k < total := by
  induction h with
  | part _ _ _ _ ih => exact ih
  | packet | last => omega

theorem body_le : ∀ s ∈ segs, s.body.length ≤ 255 := by
  induction h with
  | part _ _ _ _ ih | packet _ _ _ _ _ _ _ ih =>
    intro s hs
    rcases mem_cons.mp hs with rfl | hs
    · omega
    · exact ih s hs
  | last _ short =>
    intro s hs
    rw [mem_singleton.mp hs]
    omega

end

/-- All segments of one packet, if its last one can be taken. The induction is on the part of
    the packet not yet read. -/
theorem of_segmentsOf {granule : ℕ} {finish : EndInfo} {data : List UInt8}
    {rest : List Segment} (hfits : acc.length + data.length ≤ maxPacketBytes)
    (hend : ∀ acc' body, acc' ++ body = acc ++ data → body.length < 255 →
      Speech lib final total d acc' k (⟨body, some (granule, finish)⟩ :: rest)) :
    Speech lib final total d acc k (segmentsOf granule finish data ++ rest) := by
  induction hlen : data.length using Nat.strongRecOn generalizing acc data with
  | ind n ih =>
    rw [segmentsOf]
    split
    · next hshort =>
      exact hend acc data rfl hshort
    · have hdrop : (data.drop 255).length = data.length - 255 := length_drop
      have htake : (data.take 255).length = 255 := by
        rw [length_take]
        omega
      have hwhole : acc ++ data.take 255 ++ data.drop 255 = acc ++ data := by
        rw [append_assoc, take_append_drop]
      refine .part rfl htake (by rw [htake]; omega) ?_
      refine ih (data.drop 255).length (by omega) ?_ ?_ rfl
      · rw [length_append, htake, hdrop]
        omega
      · intro acc' body hbody
        exact hend acc' body (hbody.trans hwhole)

end Speech

/-! ## One page -/

/-- The last packet completed among `segs`. -/
def lastEnd (segs : List Segment) : Option (ℕ × EndInfo) :=
  (segs.filterMap Segment.ends).getLast?

theorem lastEnd_cons (s : Segment) (segs : List Segment) :
    lastEnd (s :: segs) = (lastEnd segs).or s.ends := by
  unfold lastEnd
  cases hs : s.ends with
  | none => rw [filterMap_cons_none hs, or_none]
  | some e =>
    rw [filterMap_cons_some hs, getLast?_cons]
    cases (segs.filterMap Segment.ends).getLast? <;> rfl

variable {segs : List Segment}

theorem granuleOf_of_lastEnd {e : ℕ × EndInfo} (h : lastEnd segs = some e) :
    granuleOf segs = e.1 := by
  rw [granuleOf, show (segs.filterMap Segment.ends).getLast? = some e from h]
  rfl

theorem granuleOf_of_none (h : lastEnd segs = none) : granuleOf segs = u64Max := by
  rw [granuleOf, show (segs.filterMap Segment.ends).getLast? = none from h]
  rfl

/-- The inspector between two segments of the audio part. -/
structure Hears (st : Inspect δ) (rate skip : ℕ) (d : δ) (acc : List UInt8) (k : ℕ) : Prop where
  packet_eq : st.packet = acc
  decoder_eq : st.decoder = some d
  packetIndex_eq : st.packetIndex = k + 2
  decoded_eq : st.decoded = 960 * k
  inputRate_eq : st.inputRate = rate
  skip_eq : st.skip = skip

/-- What a segment leaves alone: the page-level part of the state. -/
def Inspect.clock (st : Inspect δ) : Option ℕ × ℕ × ℕ × Option ℕ × Option ℕ :=
  (st.serial, st.sequence, st.totalBytes, st.previousGranule, st.ordinaryOffset)

namespace Hears
variable {st : Inspect δ} {rate skip : ℕ} {d d' : δ} {acc body : List UInt8} {k : ℕ}

theorem lace_part (h : Hears st rate skip d acc k) (hfull : body.length = 255)
    (hfits : acc.length + body.length ≤ maxPacketBytes) :
    ∃ st', st.lace lib body = .ok st' ∧ st'.clock = st.clock ∧
      Hears st' rate skip d (acc ++ body) k := by
  have hsize : decide (st.packet.length + body.length > maxPacketBytes) = false := by
    rw [h.packet_eq, decide_eq_false_iff_not]
    omega
  refine ⟨{ st with packet := st.packet ++ body }, ?_, rfl, ?_⟩
  · rw [lace, hsize, refuseIf_false, ok_bind]
    rw [if_pos hfull]
  · exact { h with packet_eq := by rw [h.packet_eq] }

theorem lace_packet (h : Hears st rate skip d acc k) (hshort : body.length < 255)
    (hfits : acc.length + body.length ≤ maxPacketBytes) (hne : acc ++ body ≠ [])
    (hdecode : lib.decode d (acc ++ body) = (960, d')) (hcount : 960 * (k + 1) ≤ u64Max) :
    ∃ st', st.lace lib body = .ok st' ∧ st'.clock = st.clock ∧
      Hears st' rate skip d' [] (k + 1) := by
  have hsize : decide (st.packet.length + body.length > maxPacketBytes) = false := by
    rw [h.packet_eq, decide_eq_false_iff_not]
    omega
  have hsum : checkedAdd st.decoded (960 : ℤ).toNat = some (960 * (k + 1)) := by
    rw [h.decoded_eq]
    exact checkedAdd_eq_some.mpr ⟨hcount, rfl⟩
  have haccept : ({ st with packet := acc ++ body } : Inspect δ).acceptPacket lib =
      .ok { st with packet := acc ++ body, decoder := some d', decoded := 960 * (k + 1) } := by
    rw [acceptPacket, show ({ st with packet := acc ++ body } : Inspect δ).packetIndex
      = k + 2 from h.packetIndex_eq]
    show acceptAudio lib _ = _
    rw [acceptAudio, isEmpty_eq_false_iff.mpr hne, refuseIf_false, ok_bind]
    dsimp only
    rw [h.decoder_eq, okOr, ok_bind, hdecode, show decide ((960 : ℤ) < 0) = false from rfl,
      refuseIf_false, ok_bind, hsum, okOr, ok_bind]
  refine ⟨{ st with
    packet := [], decoder := some d', decoded := 960 * (k + 1), packetIndex := st.packetIndex + 1 },
    ?_, rfl, ?_⟩
  · rw [lace, hsize, refuseIf_false, ok_bind, h.packet_eq]
    rw [if_neg (by omega), haccept, ok_bind]
  · exact ⟨rfl, rfl, by rw [h.packetIndex_eq], rfl, h.inputRate_eq, h.skip_eq⟩

end Hears

/-- What is known after the segments `segs` of one page, from `acc` of the packet after the
    `k`th to `acc'` of the packet after the `k'`th: either the stream goes on with `rest`, or
    the page was the last one. -/
inductive Taken (lib : Libopus σ δ) (final total : ℕ) (segs rest : List Segment)
    (acc : List UInt8) (k : ℕ) (d' : δ) (acc' : List UInt8) (k' : ℕ) : Prop
  | on (next : Speech lib final total d' acc' k' rest)
      (clock : k' = k ∧ lastEnd segs = none ∨
        k < k' ∧ ∃ finish, lastEnd segs = some (960 * k', finish))
      (cut : segs = [] ∧ acc' = acc ∨
        segs ≠ [] ∧ cutsPacket segs = !acc'.isEmpty ∧ endsStream segs = false)
  | last (rest_eq : rest = []) (acc_eq : acc' = []) (k_eq : k' = total) (k_lt : k < total)
      (clock : lastEnd segs = some (final, .endStream)) (ends : endsStream segs = true)

variable {s : Segment}

theorem cutsPacket_cons (h : segs ≠ []) : cutsPacket (s :: segs) = cutsPacket segs := by
  obtain ⟨t, rest, rfl⟩ := exists_cons_of_ne_nil h
  rw [cutsPacket, cutsPacket, getLast?_cons_cons]

theorem endsStream_cons (h : segs ≠ []) : endsStream (s :: segs) = endsStream segs := by
  obtain ⟨t, rest, rfl⟩ := exists_cons_of_ne_nil h
  rw [endsStream, endsStream, getLast?_cons_cons]

variable {acc : List UInt8}

/-- A further segment in front of the page; `cut_one` is for the page of this segment alone. -/
theorem Taken.cons {final total k k1 k' : ℕ} {rest : List Segment} {d' : δ} {acc1 acc' : List UInt8}
    (h : Taken lib final total segs rest acc1 k1 d' acc' k') (hstep : k1 = k ∧ s.ends = none ∨
      k1 = k + 1 ∧ ∃ finish, s.ends = some (960 * (k + 1), finish))
    (cut_one : cutsPacket [s] = !acc1.isEmpty ∧ endsStream [s] = false) :
    Taken lib final total (s :: segs) rest acc k d' acc' k' := by
  cases h with
  | on next clock cut =>
    refine .on next ?_ (.inr ⟨cons_ne_nil _ _, ?_⟩)
    · rw [lastEnd_cons]
      rcases clock with ⟨hk, hnone⟩ | ⟨hk, finish, hsome⟩
      · rw [hnone, none_or]
        rcases hstep with ⟨hk1, hs⟩ | ⟨hk1, finish, hs⟩
        · exact .inl ⟨by omega, hs⟩
        · exact .inr ⟨by omega, finish, by rw [hs, hk, hk1]⟩
      · refine .inr ⟨by omega, finish, ?_⟩
        rw [hsome, some_or]
    · rcases cut with ⟨rfl, rfl⟩ | ⟨hsegs, hcut⟩
      · exact cut_one
      · rwa [cutsPacket_cons hsegs, endsStream_cons hsegs]
  | last rest_eq acc_eq k_eq k_lt clock ends =>
    have hsegs : segs ≠ [] := by
      rintro rfl
      cases ends
    refine .last rest_eq acc_eq k_eq (by omega) ?_ ?_
    · rw [lastEnd_cons, clock, some_or]
    · rw [endsStream_cons hsegs, ends]

theorem isEmpty_append_eq_false {body : List UInt8} (h : body.length = 255) :
    (acc ++ body).isEmpty = false := by
  rw [isEmpty_eq_false_iff, ← length_pos_iff, length_append]
  omega

variable {st : Inspect δ} {st' : Inspect δ} {sequence : ℕ}

/-- The segments of one page, by induction on them. -/
theorem Inspect.parts_speech {final total rate skip : ℕ} (hcount : 960 * total ≤ u64Max)
    (segs rest : List Segment) {d : δ} {k : ℕ}
    (hspeech : Speech lib final total d acc k (segs ++ rest)) (hst : Hears st rate skip d acc k) :
    ∃ st' d' acc' k', st.parts lib (segs.map Segment.body) = .ok st' ∧
      st'.clock = st.clock ∧ Hears st' rate skip d' acc' k' ∧
      Taken lib final total segs rest acc k d' acc' k' := by
  induction segs generalizing st d acc k with
  | nil =>
    exact ⟨st, d, acc, k, rfl, rfl, hst, .on hspeech (.inl ⟨rfl, rfl⟩) (.inl ⟨rfl, rfl⟩)⟩
  | cons s segs ih =>
    have hlt := hspeech.lt_total
    have hunfold : ∀ st1, st.lace lib s.body = .ok st1 →
        st.parts lib ((s :: segs).map Segment.body) = st1.parts lib (segs.map Segment.body) := by
      intro st1 hlace
      rw [map_cons, parts, foldlM_cons, hlace, ok_bind, parts]
    rw [cons_append] at hspeech
    generalize hall : segs ++ rest = all at hspeech
    cases hspeech with
    | part ends full fits next =>
      subst hall
      obtain ⟨st1, hlace, hclock1, hst1⟩ := hst.lace_part full fits
      obtain ⟨st', d', acc', k', hparts, hclock, hst', htaken⟩ := ih next hst1
      refine ⟨st', d', acc', k', (hunfold st1 hlace).trans hparts, hclock.trans hclock1, hst',
        htaken.cons (.inl ⟨rfl, ends⟩) ⟨?_, ?_⟩⟩
      · rw [isEmpty_append_eq_false full]
        simp [cutsPacket, ends]
      · simp [endsStream, ends]
    | packet ends more short fits ne decodes next =>
      subst hall
      obtain ⟨st1, hlace, hclock1, hst1⟩ := hst.lace_packet short fits ne decodes (by omega)
      obtain ⟨st', d', acc', k', hparts, hclock, hst', htaken⟩ := ih next hst1
      refine ⟨st', d', acc', k', (hunfold st1 hlace).trans hparts, hclock.trans hclock1, hst',
        htaken.cons (.inr ⟨rfl, _, ends⟩) ⟨?_, ?_⟩⟩
      · simp [cutsPacket, ends]
      · simp [endsStream, ends, more]
    | last ends short fits ne decodes all =>
      obtain ⟨rfl, rfl⟩ := append_eq_nil_iff.mp hall
      obtain ⟨st1, hlace, hclock1, hst1⟩ := hst.lace_packet short fits ne decodes (by omega)
      refine ⟨st1, _, [], k + 1, hunfold st1 hlace, hclock1, hst1, .last rfl rfl all hlt ?_ ?_⟩
      · simp [lastEnd, ends]
      · simp [endsStream, ends]

/-! ## The clock of a page -/

/-- What the end of a stream of `total` packets has to satisfy. -/
structure Closes (final total skip rate : ℕ) : Prop where
  count_lt : 960 * total < u64Max
  previous_le : 960 * (total - 1) ≤ final
  skip_le : skip ≤ final
  final_le : final ≤ 960 * total
  aligned : (final - skip) % (granuleRate / rate) = 0

/-- The inspector between two pages of the audio part. -/
structure Between (st : Inspect δ) (serial rate skip : ℕ) (d : δ) (acc : List UInt8) (k : ℕ) :
    Prop where
  hears : Hears st rate skip d acc k
  serial_eq : st.serial = some serial
  sequence_lt : st.sequence < 2 ^ 32
  previous_le : ∀ g ∈ st.previousGranule, g ≤ 960 * k
  offset_eq : ∀ o ∈ st.ordinaryOffset, o = 0

section Close
variable {st : Inspect δ} {rate skip final total k k' : ℕ} {d : δ} {acc : List UInt8}
  {h : PageHeader}

theorem close_open (hst : Hears st rate skip d acc k) (heos : h.eos = false)
    (hgranule : h.granule = u64Max) : st.close (k + 2) h = .ok (.more st) := by
  rw [close, if_neg (by omega), if_pos hst.packetIndex_eq, heos, hgranule]
  rfl

theorem not_regressed (hprev : ∀ g ∈ st.previousGranule, g ≤ 960 * k) (hle : 960 * k ≤ h.granule)
    (hlt : h.granule < u64Max) :
    (h.granule == u64Max || st.previousGranule.any (h.granule < ·)) = false := by
  rw [Bool.or_eq_false_iff, beq_eq_false_iff_ne, Option.any_eq_false]
  refine ⟨hlt.ne, fun g hg => ?_⟩
  have := hprev g hg
  exact decide_eq_false (by omega)

theorem close_packets (hst : Hears st rate skip d acc k') (hk : k < k') (heos : h.eos = false)
    (hgranule : h.granule = 960 * k') (hlt : 960 * k' < u64Max)
    (hprev : ∀ g ∈ st.previousGranule, g ≤ 960 * k)
    (hoffset : ∀ o ∈ st.ordinaryOffset, o = 0) :
    st.close (k + 2) h = .ok (.more { st with
      previousGranule := some (960 * k'), ordinaryOffset := some 0 }) := by
  have hindex : ¬ st.packetIndex = k + 2 := by
    rw [hst.packetIndex_eq]
    omega
  have hdelta : checkedSub h.granule st.decoded = some 0 := by
    rw [hgranule, hst.decoded_eq]
    exact checkedSub_eq_some.mpr ⟨Nat.le_refl _, Nat.sub_self _⟩
  have hsame : st.ordinaryOffset.any (· != 0) = false := by
    rw [Option.any_eq_false]
    intro o ho
    simp [hoffset o ho]
  rw [close, if_neg (by omega), if_neg hindex,
    not_regressed hprev (by omega) (by omega), refuseIf_false, ok_bind, heos]
  simp only [Bool.not_false, if_true]
  rw [hdelta, okOr, ok_bind, hsame, hgranule]
  rfl

theorem close_last (hst : Hears st rate skip d [] total) (hk : k < total) (heos : h.eos = true)
    (hgranule : h.granule = final) (hclose : Closes final total skip rate)
    (hprev : ∀ g ∈ st.previousGranule, g ≤ 960 * k) :
    st.close (k + 2) h = .ok (.done ⟨rate, final - skip, total, st.totalBytes⟩) := by
  have hcount := hclose.count_lt
  have hprevious := hclose.previous_le
  have hskip := hclose.skip_le
  have hfinal := hclose.final_le
  have hindex : ¬ st.packetIndex = k + 2 := by
    rw [hst.packetIndex_eq]
    omega
  have hbacked : (!st.packet.isEmpty || decide (h.granule < st.skip) ||
      decide (h.granule > st.decoded)) = false := by
    rw [hst.packet_eq, hst.skip_eq, hst.decoded_eq, hgranule]
    simp only [isEmpty_nil, Bool.not_true, Bool.false_or, Bool.or_eq_false_iff,
      decide_eq_false_iff_not]
    omega
  rw [close, if_neg (by omega), if_neg hindex,
    not_regressed hprev (by omega) (by omega), refuseIf_false, ok_bind, heos]
  simp only [Bool.not_true, Bool.false_eq_true, if_false]
  rw [hbacked, refuseIf_false, ok_bind, hgranule, hst.skip_eq, hst.inputRate_eq, hclose.aligned,
    show ((0 : ℕ) != 0) = false from rfl, refuseIf_false, ok_bind, hst.packetIndex_eq]
  rfl

end Close

/-! ## All pages -/

theorem inspectFrom_more {bytes rest : List UInt8} (h : st.page lib bytes = .ok (.more st', rest)) :
    inspectFrom lib st bytes = inspectFrom lib st' rest := by
  rw [inspectFrom]
  split <;> simp_all

theorem inspectFrom_done {bytes : List UInt8} {archive : CompleteArchive}
    (h : st.page lib bytes = .ok (.done archive, [])) : inspectFrom lib st bytes = .ok archive := by
  rw [inspectFrom]
  split <;> simp_all

section Pages
variable {serial rate skip final total : ℕ} {st : Inspect δ} {d : δ} {acc : List UInt8} {k : ℕ}
  {segs rest : List Segment}

theorem writable_pageOf {continued first : Bool} (hserial : serial < 2 ^ 32)
    (hsequence : sequence < 2 ^ 32) (hgranule : granuleOf segs < 2 ^ 64) (hne : segs ≠ [])
    (hlen : segs.length ≤ 255) (hbody : ∀ s ∈ segs, s.body.length ≤ 255) :
    Writable (pageOf continued first serial sequence segs) where
  granule_lt := hgranule
  serial_lt := hserial
  sequence_lt := hsequence
  segments_ne_nil := by simpa [pageOf] using hne
  segments_length := by simpa [pageOf] using hlen
  body_length := by
    intro body hmem
    obtain ⟨s, hs, rfl⟩ := mem_map.mp hmem
    exact hbody s hs

/-- One audio page: the stream goes on after it, or it was the last page. -/
theorem Between.page (hst : Between st serial rate skip d acc k) (hserial : serial < 2 ^ 32)
    (hclose : Closes final total skip rate)
    (hspeech : Speech lib final total d acc k (segs ++ rest)) (hne : segs ≠ [])
    (hlen : segs.length ≤ 255) {p : Page}
    (hp : p = pageOf (!acc.isEmpty) false serial st.sequence segs)
    (hbytes : st.totalBytes + (p.bytes checksum).length ≤ u64Max) (tail : List UInt8) :
    (∃ st' d' acc' k', st.page lib (p.bytes checksum ++ tail) = .ok (.more st', tail) ∧
      Between st' serial rate skip d' acc' k' ∧ Speech lib final total d' acc' k' rest ∧
      cutsPacket segs = !acc'.isEmpty ∧ st'.sequence = (st.sequence + 1) % 2 ^ 32 ∧
      st'.totalBytes = st.totalBytes + (p.bytes checksum).length) ∨
    rest = [] ∧ st.page lib (p.bytes checksum ++ tail) = .ok (.done
      ⟨rate, final - skip, total, st.totalBytes + (p.bytes checksum).length⟩, tail) := by
  have hcount := hclose.count_lt
  have hfinal := hclose.final_le
  have hears := hst.hears
  have hentered : Hears (st.entered p) rate skip d acc k :=
    { hears with }
  obtain ⟨fed, d', acc', k', hparts, hclock, hfed, htaken⟩ :=
    parts_speech (le_of_lt hcount) segs rest hspeech hentered
  have hprev : ∀ g ∈ fed.previousGranule, g ≤ 960 * k := by
    rw [show fed.previousGranule = st.previousGranule from congrArg (·.2.2.2.1) hclock]
    exact hst.previous_le
  have hoffset : ∀ o ∈ fed.ordinaryOffset, o = 0 := by
    rw [show fed.ordinaryOffset = st.ordinaryOffset from congrArg (·.2.2.2.2) hclock]
    exact hst.offset_eq
  have hsequence : fed.sequence = (st.sequence + 1) % 2 ^ 32 := congrArg (·.2.1) hclock
  have htotal : fed.totalBytes = st.totalBytes + (p.bytes checksum).length :=
    congrArg (·.2.2.1) hclock
  have hserial' : fed.serial = some serial := by
    rw [show fed.serial = some p.serial from congrArg (·.1) hclock, hp]
    rfl
  -- The page's own part is the same in all cases; they differ in the clock.
  have hpage : ∀ outcome, granuleOf segs < 2 ^ 64 → fed.close (k + 2) (headerOf p) = .ok outcome →
      st.page lib (p.bytes checksum ++ tail) = .ok (outcome, tail) := by
    intro outcome hgranule hclosed
    have hbody : ∀ s ∈ segs, s.body.length ≤ 255 :=
      fun s hs => hspeech.body_le s (mem_append_left _ hs)
    have hwritable : Writable p := by
      rw [hp]
      exact writable_pageOf hserial hst.sequence_lt hgranule hne hlen hbody
    rw [← hears.packetIndex_eq] at hclosed
    subst hp
    refine page_bytes hwritable tail rfl ?_ ?_ ?_ hbytes hparts hclosed
    · rw [hst.serial_eq]
      intro s hs
      exact (some.inj hs).symm
    · rw [hst.serial_eq]
      rfl
    · rw [hears.packet_eq]
      rfl
  cases htaken with
  | on next clock cut =>
    obtain ⟨hcut, hlast⟩ := (cut.resolve_left fun h => hne h.1).2
    have hk' := next.lt_total
    have heos : (headerOf p).eos = false := by
      rw [PageHeader.eos, headerOf, Page.flags, flagBits_last, hp]
      exact hlast
    left
    rcases clock with ⟨rfl, hnone⟩ | ⟨hk, finish, hsome⟩
    · have hgranule := granuleOf_of_none hnone
      refine ⟨fed, d', acc', k', hpage _ ?_ ?_, ?_, next, hcut, hsequence, htotal⟩
      · rw [hgranule]
        decide
      · refine close_open hfed heos ?_
        rw [← hgranule, hp]
        rfl
      · exact ⟨hfed, hserial', by rw [hsequence]; omega, hprev, hoffset⟩
    · have hgranule := granuleOf_of_lastEnd hsome
      refine ⟨_, d', acc', k', hpage _ ?_ (close_packets hfed hk heos ?_ (by omega) hprev hoffset),
        ?_, next, hcut, hsequence, htotal⟩
      · unfold u64Max at hcount
        omega
      · rw [← show granuleOf segs = 960 * k' from hgranule, hp]
        rfl
      · refine ⟨{ hfed with }, hserial', ?_, ?_, ?_⟩
        · show fed.sequence < 2 ^ 32
          omega
        · intro g hg
          obtain rfl : 960 * k' = g := some.inj hg
          exact le_rfl
        · intro o ho
          exact (some.inj ho).symm
  | last rest_eq acc_eq k_eq k_lt clock ends =>
    subst acc_eq k_eq
    have hgranule := granuleOf_of_lastEnd clock
    have heos : (headerOf p).eos = true := by
      rw [PageHeader.eos, headerOf, Page.flags, flagBits_last, hp]
      exact ends
    right
    rw [← htotal]
    refine ⟨rest_eq, hpage _ ?_ (close_last hfed k_lt heos ?_ hclose hprev)⟩
    · unfold u64Max at hcount
      omega
    · rw [← show granuleOf segs = final from hgranule, hp]
      rfl

/-- The audio pages, as bytes. -/
def audioBytes (serial : ℕ) (continued : Bool) (sequence : ℕ) (pages : List (List Segment)) :
    List UInt8 :=
  (pagesFrom serial continued false sequence pages).flatMap (Page.bytes checksum)

/-- The run over all audio pages, by induction on them. -/
theorem inspectFrom_speech (hserial : serial < 2 ^ 32) (hclose : Closes final total skip rate)
    (pages : List (List Segment)) (hpages : ∀ segs ∈ pages, segs ≠ [] ∧ segs.length ≤ 255)
    (hspeech : Speech lib final total d acc k pages.flatten)
    (hst : Between st serial rate skip d acc k)
    (hbytes : st.totalBytes + (audioBytes serial (!acc.isEmpty) st.sequence pages).length ≤
      u64Max) :
    inspectFrom lib st (audioBytes serial (!acc.isEmpty) st.sequence pages) =
      .ok ⟨rate, final - skip, total,
        st.totalBytes + (audioBytes serial (!acc.isEmpty) st.sequence pages).length⟩ := by
  induction pages generalizing st d acc k with
  | nil => exact absurd rfl hspeech.ne_nil
  | cons segs pages ih =>
    obtain ⟨hne, hlen⟩ := hpages segs (mem_cons_self ..)
    have hpages' : ∀ segs ∈ pages, segs ≠ [] ∧ segs.length ≤ 255 :=
      fun segs hsegs => hpages segs (mem_cons_of_mem _ hsegs)
    have hsplit : audioBytes serial (!acc.isEmpty) st.sequence (segs :: pages) =
        (pageOf (!acc.isEmpty) false serial st.sequence segs).bytes checksum ++
          audioBytes serial (cutsPacket segs) ((st.sequence + 1) % 2 ^ 32) pages := rfl
    rw [hsplit, length_append] at hbytes
    rw [hsplit, length_append]
    rcases hst.page hserial hclose hspeech hne hlen rfl (by omega)
      (audioBytes serial (cutsPacket segs) ((st.sequence + 1) % 2 ^ 32) pages) with
      ⟨st', d', acc', k', hpage, hst', hnext, hcut, hsequence, htotal⟩ | ⟨hrest, hpage⟩
    · rw [inspectFrom_more hpage, hcut, ← hsequence]
      rw [hcut, ← hsequence] at hbytes
      rw [ih hpages' hnext hst' (by omega), htotal, add_assoc]
    · have hnil : pages = [] := by
        by_contra hcons
        obtain ⟨segs', pages', rfl⟩ := exists_cons_of_ne_nil hcons
        have hsegs' := (hpages' segs' (mem_cons_self ..)).1
        exact hsegs' (append_eq_nil_iff.mp hrest).1
      subst hnil
      have hempty : audioBytes serial (cutsPacket segs) ((st.sequence + 1) % 2 ^ 32) [] = [] := rfl
      rw [hempty] at hpage ⊢
      rw [length_nil, add_zero]
      exact inspectFrom_done hpage

end Pages

/-! ## Header pages -/

section Head
variable {skip rate : ℕ}

@[simp] theorem opusHead_length : (opusHead 1 skip rate).length = 19 := by
  simp [opusHead]
  decide

theorem opusHead_fields (skip rate : ℕ) :
    slice (opusHead 1 skip rate) 0 8 = "OpusHead".toUTF8.data.toList ∧
      (opusHead 1 skip rate).getD 8 0 = 1 ∧ (opusHead 1 skip rate).getD 9 0 = 1 ∧
      slice (opusHead 1 skip rate) 16 18 = [0, 0] ∧ (opusHead 1 skip rate).getD 18 0 = 0 ∧
      slice (opusHead 1 skip rate) 10 12 = leBytes 2 skip ∧
      slice (opusHead 1 skip rate) 12 16 = leBytes 4 rate := by
  have hmagic : "OpusHead".toUTF8.data.toList =
      [0x4f, 0x70, 0x75, 0x73, 0x48, 0x65, 0x61, 0x64] := by decide
  rw [opusHead, hmagic]
  simp [slice, leBytes]

theorem supportedRates_lt (h : rate ∈ supportedRates) : rate < 256 ^ 4 := by
  rw [mem_supportedRates] at h
  omega

theorem tags_opusTags : tags opusTags = true := by decide

theorem opusTags_length : opusTags.length = 35 := by decide

variable {dec : δ}

theorem acceptHead_opusHead (hdec : lib.decoderCreate = .ok dec) (hrate : rate ∈ supportedRates)
    (hskip : skip < 2 ^ 16) (hindex : st.packetIndex = 0) (hst : st.packet = opusHead 1 skip rate) :
    st.acceptPacket lib =
      .ok { st with inputRate := rate, skip, decoder := some dec } := by
  obtain ⟨hmagic, hversion, hchannels, hgain, hfamily, hslice, hrates⟩ :=
    opusHead_fields skip rate
  have hskip' : leNat (leBytes 2 skip) = skip := leNat_leBytes_of_lt hskip
  have hrate' : leNat (leBytes 4 rate) = rate := leNat_leBytes_of_lt (supportedRates_lt hrate)
  have hdispatch : st.acceptPacket lib = st.acceptHead lib := by
    rw [acceptPacket, hindex]
    rfl
  rw [hdispatch, acceptHead, hst, opusHead_length, hmagic, hversion, hchannels, hgain, hfamily,
    hslice, hrates, hskip', hrate', hdec]
  simp only [contains_iff_mem.mpr hrate, Bool.not_true]
  rfl

theorem acceptTags_opusTags (hindex : st.packetIndex = 1) (hst : st.packet = opusTags) :
    st.acceptPacket lib = .ok st := by
  rw [acceptPacket, hindex]
  rw [acceptTags, hst, tags_opusTags]
  rfl

variable {packet : List UInt8}

theorem lace_header (hempty : st.packet = []) (hshort : packet.length < 255)
    (haccept : ({ st with packet } : Inspect δ).acceptPacket lib = .ok st') :
    st.lace lib packet = .ok { st' with packetIndex := st'.packetIndex + 1, packet := [] } := by
  have hsize : decide (st.packet.length + packet.length > maxPacketBytes) = false := by
    rw [hempty, length_nil, decide_eq_false_iff_not]
    unfold maxPacketBytes
    omega
  rw [lace, hsize, refuseIf_false, ok_bind, hempty, nil_append]
  rw [if_neg (by omega), haccept, ok_bind]

variable {serial : ℕ} {first : Bool}

theorem writable_header (hserial : serial < 2 ^ 32)
    (hsequence : sequence < 2 ^ 32) (hshort : packet.length < 255) :
    Writable (pageOf false first serial sequence [⟨packet, some (0, .endPage)⟩]) := by
  refine writable_pageOf hserial hsequence (Nat.two_pow_pos 64) (cons_ne_nil _ _)
    (Nat.le_add_left 1 254) fun s hs => ?_
  rw [mem_singleton.mp hs]
  exact le_of_lt hshort

theorem header_page (st : Inspect δ) {p : Page}
    (hp : p = pageOf false first serial st.sequence [⟨packet, some (0, .endPage)⟩])
    (hserial : serial < 2 ^ 32) (hsequence : st.sequence < 2 ^ 32) (hshort : packet.length < 255)
    (hsame : ∀ s ∈ st.serial, s = serial) (hfirst : first = st.serial.isNone)
    (hempty : st.packet = []) (hindex : st.packetIndex < 2)
    (haccept : ({ st.entered p with packet } : Inspect δ).acceptPacket lib = .ok st')
    (hindex' : st'.packetIndex = st.packetIndex)
    (hbytes : st.totalBytes + (p.bytes checksum).length ≤ u64Max) (tail : List UInt8) :
    st.page lib (p.bytes checksum ++ tail) =
      .ok (.more { st' with packetIndex := st'.packetIndex + 1, packet := [] }, tail) := by
  have hwritable : Writable p := by
    rw [hp]
    exact writable_header hserial hsequence hshort
  have heos : (headerOf p).eos = false := by
    rw [PageHeader.eos, headerOf, Page.flags, flagBits_last, hp]
    rfl
  have hgranule : (headerOf p).granule = 0 := by
    rw [hp]
    rfl
  have hlace : (st.entered p).lace lib packet = _ := lace_header hempty hshort haccept
  have hfed : (st.entered p).parts lib p.segments =
      .ok { st' with packetIndex := st'.packetIndex + 1, packet := [] } := by
    rw [show p.segments = [packet] by rw [hp]; rfl, parts, foldlM_cons, hlace, ok_bind]
    rfl
  refine page_bytes hwritable tail ?_ ?_ ?_ ?_ hbytes hfed ?_
  · rw [hp]
    rfl
  · rw [hp]
    exact hsame
  · rw [hp]
    exact hfirst
  · rw [hp, hempty]
    rfl
  · rw [close, if_pos hindex, heos, hgranule, hindex', bne_self_eq_false]
    rfl

section
variable (hdec : lib.decoderCreate = .ok dec) (hserial : serial < 2 ^ 32)
  (hrate : rate ∈ supportedRates) (hskip : skip < 2 ^ 16)
include hdec hserial hrate hskip

theorem inspect_headers {p q : Page}
    (hp : p = pageOf false true serial 0 [⟨opusHead 1 skip rate, some (0, .endPage)⟩])
    (hq : q = pageOf false false serial 1 [⟨opusTags, some (0, .endPage)⟩])
    (hbytes : (p.bytes checksum).length + (q.bytes checksum).length ≤ u64Max) (tail : List UInt8) :
    ∃ st : Inspect δ, Between st serial rate skip dec [] 0 ∧ st.sequence = 2 ∧
      st.totalBytes = (p.bytes checksum).length + (q.bytes checksum).length ∧
      inspectFrom lib .start (p.bytes checksum ++ (q.bytes checksum ++ tail)) =
        inspectFrom lib st tail := by
  have hhead : (opusHead 1 skip rate).length < 255 := by rw [opusHead_length]; omega
  have htags : opusTags.length < 255 := by rw [opusTags_length]; omega
  have hstart : (start : Inspect δ).totalBytes = 0 := rfl
  have hserial' : p.serial = serial := by
    rw [hp]
    rfl
  let st1 : Inspect δ := { (start : Inspect δ).entered p with
    packet := [], inputRate := rate, skip, decoder := some dec, packetIndex := 1 }
  have htotal1 : st1.totalBytes = (p.bytes checksum).length := zero_add _
  have hfirst : (start : Inspect δ).page lib
      (p.bytes checksum ++ (q.bytes checksum ++ tail)) =
        .ok (.more st1, q.bytes checksum ++ tail) :=
    header_page .start hp hserial (Nat.two_pow_pos 32) hhead
      (fun _ hs => absurd hs (not_mem_none _)) rfl rfl two_pos
      (acceptHead_opusHead hdec hrate hskip rfl rfl) rfl (by omega) _
  have hsame : ∀ s ∈ st1.serial, s = serial := by
    intro s hs
    rw [← some.inj hs, hserial']
  have hsecond : st1.page lib (q.bytes checksum ++ tail) = _ :=
    header_page st1 hq hserial (show 1 < 2 ^ 32 by decide) htags hsame rfl rfl
      one_lt_two (acceptTags_opusTags rfl rfl) rfl (by omega) tail
  refine ⟨_, ?_, rfl, ?_, (inspectFrom_more hfirst).trans (inspectFrom_more hsecond)⟩
  · refine ⟨⟨rfl, rfl, rfl, rfl, rfl, rfl⟩, ?_, show 2 < 2 ^ 32 by decide, ?_, ?_⟩
    · rw [hq]
      rfl
    · exact fun _ hg => absurd hg (not_mem_none _)
    · exact fun _ ho => absurd ho (not_mem_none _)
  · show st1.totalBytes + (q.bytes checksum).length = _
    rw [htotal1]

/-- A whole stream, however its packets are cut into pages. -/
theorem inspect_stream {final total : ℕ} {audio : List Packet} {pages : List (List Segment)}
    (hframed : Framed (⟨opusHead 1 skip rate, 0, .endPage⟩ :: ⟨opusTags, 0, .endPage⟩ :: audio)
      pages) (hclose : Closes final total skip rate)
    (hspeech : Speech lib final total dec [] 0 (audio.flatMap Packet.segments))
    (hbytes : (streamBytes checksum serial pages).length ≤ u64Max) :
    inspectCompleteArchive lib (streamBytes checksum serial pages) =
      .ok ⟨rate, final - skip, total, (streamBytes checksum serial pages).length⟩ := by
  have hhead : (opusHead 1 skip rate).length < 255 := by rw [opusHead_length]; omega
  have htags : opusTags.length < 255 := by rw [opusTags_length]; omega
  obtain ⟨pages1, rfl, hframed1⟩ := hframed.of_cons hhead EndInfo.noConfusion
  obtain ⟨pages, rfl, haudio⟩ := hframed1.of_cons htags EndInfo.noConfusion
  have hsplit : streamBytes checksum serial
      ([⟨opusHead 1 skip rate, some (0, .endPage)⟩] :: [⟨opusTags, some (0, .endPage)⟩] :: pages) =
      (pageOf false true serial 0 [⟨opusHead 1 skip rate, some (0, .endPage)⟩]).bytes checksum ++
        ((pageOf false false serial 1 [⟨opusTags, some (0, .endPage)⟩]).bytes checksum ++
          audioBytes serial false 2 pages) := rfl
  rw [hsplit, length_append, length_append] at hbytes
  obtain ⟨st, hst, hsequence, htotal, hrun⟩ := inspect_headers hdec hserial hrate hskip rfl rfl
    (by omega) (audioBytes serial false 2 pages)
  have hpages : ∀ segs ∈ pages, segs ≠ [] ∧ segs.length ≤ 255 :=
    fun segs hsegs => ⟨haudio.ne_nil segs hsegs, haudio.length_le segs hsegs⟩
  rw [← haudio.flatten_eq] at hspeech
  have hrest := inspectFrom_speech hserial hclose pages hpages hspeech hst
  rw [hsequence, htotal] at hrest
  rw [hsplit, inspectCompleteArchive, hrun, length_append, length_append, ← add_assoc]
  exact hrest (by rw [add_assoc]; exact hbytes)

end

end Head

end FlyOnTheWall.Opus
