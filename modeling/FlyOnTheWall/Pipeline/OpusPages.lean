/-
  What the inspector reads from a page that was written.

  * `readHeader_bytes`, `readBody_bytes`: the fields of a written page come back.
  * `Inspect.feed_eq`: the lacing values cut the body into the segments of the page.
  * `Inspect.page_bytes`: on a written page the inspector takes the segments in order and
    then checks the page's clock.
-/
import FlyOnTheWall.Pipeline.OpusComplete

namespace FlyOnTheWall.Opus
open Lib Lib.Ogg List Page

/-! ## Fields -/

/-- A page that fits its own fields. -/
structure Writable (p : Page) : Prop where
  granule_lt : p.granule < 2 ^ 64
  serial_lt : p.serial < 2 ^ 32
  sequence_lt : p.sequence < 2 ^ 32
  segments_ne_nil : p.segments ≠ []
  segments_length : p.segments.length ≤ 255
  body_length : ∀ body ∈ p.segments, body.length ≤ 255

/-- The header the inspector sees. -/
def headerOf (p : Page) : PageHeader where
  raw := p.header (checksum (p.header 0 ++ p.laces ++ p.body))
  flags := p.flags
  granule := p.granule
  serial := p.serial
  sequence := p.sequence
  crc := checksum (p.header 0 ++ p.laces ++ p.body)
  count := p.segments.length

section Slices
variable (p : Page) (crc : ℕ)

theorem slice_magic : slice (p.header crc) 0 4 = "OggS".toUTF8.data.toList := by
  simp [slice, header, leBytes]
  decide

theorem slice_granule : slice (p.header crc) 6 14 = leBytes 8 p.granule := by
  simp [slice, header, leBytes]

theorem slice_serial : slice (p.header crc) 14 18 = leBytes 4 p.serial := by
  simp [slice, header, leBytes]

theorem slice_sequence : slice (p.header crc) 18 22 = leBytes 4 p.sequence := by
  simp [slice, header, leBytes]

theorem slice_crc : slice (p.header crc) 22 26 = leBytes 4 crc := by
  simp [slice, header, leBytes]

theorem header_blank :
    (p.header crc).take 22 ++ [0, 0, 0, 0] ++ (p.header crc).drop 26 = p.header 0 := by
  simp [header, leBytes]

theorem header_version : (p.header crc).getD 4 0 = 0 := by
  simp [header, leBytes]

theorem header_flags : (p.header crc).getD 5 0 = p.flags := by
  simp [header, leBytes]

theorem header_count : (p.header crc).getD 26 0 = UInt8.ofNat p.segments.length := by
  simp [header, leBytes]

end Slices

theorem toNat_ofNat_of_le {n : ℕ} (h : n ≤ 255) : (UInt8.ofNat n).toNat = n := by
  exact Nat.mod_eq_of_lt (by omega)

variable {p : Page}

theorem parseHeader_header (h : Writable p) :
    parseHeader (p.header (checksum (p.header 0 ++ p.laces ++ p.body))) = headerOf p := by
  have hcrc := checksum_lt (p.header 0 ++ p.laces ++ p.body)
  simp only [parseHeader, headerOf, slice_granule, slice_serial, slice_sequence, slice_crc,
    header_flags, header_count, toNat_ofNat_of_le h.segments_length,
    leNat_leBytes_of_lt (show p.granule < 256 ^ 8 from h.granule_lt),
    leNat_leBytes_of_lt (show p.serial < 256 ^ 4 from h.serial_lt),
    leNat_leBytes_of_lt (show p.sequence < 256 ^ 4 from h.sequence_lt),
    leNat_leBytes_of_lt hcrc]

theorem readHeader_bytes (h : Writable p) (rest : List UInt8) :
    readHeader (p.bytes checksum ++ rest) = .ok (headerOf p, p.laces ++ p.body ++ rest) := by
  have hcount : UInt8.ofNat p.segments.length ≠ 0 := by
    intro hzero
    have hnat := congrArg UInt8.toNat hzero
    rw [toNat_ofNat_of_le h.segments_length] at hnat
    exact h.segments_ne_nil (length_eq_zero_iff.mp hnat)
  have hread : readExact 27 (p.bytes checksum ++ rest) =
      .ok (p.header (checksum (p.header 0 ++ p.laces ++ p.body)), p.laces ++ p.body ++ rest) := by
    rw [bytes]
    simp only [append_assoc]
    exact readExact_append _ (header_length _ _)
  have hne : (p.bytes checksum ++ rest).isEmpty = false := by
    rw [isEmpty_eq_false_iff, ← length_pos_iff, length_append, bytes_length]
    omega
  have hok : ∀ crc, (slice (p.header crc) 0 4 != "OggS".toUTF8.data.toList ||
      (p.header crc).getD 4 0 != 0 || (p.header crc).getD 5 0 &&& 0xf8 != 0 ||
      (p.header crc).getD 26 0 == 0) = false := by
    intro crc
    rw [slice_magic, header_version, header_flags, header_count, flags, flagBits_known]
    simp [hcount]
  rw [readHeader, hne, refuseIf_false, ok_bind, hread, ok_bind]
  dsimp only
  rw [hok, refuseIf_false, ok_bind, parseHeader_header h]

theorem laces_sum (h : Writable p) : (p.laces.map UInt8.toNat).sum = p.body.length := by
  have hmap : p.laces.map UInt8.toNat = p.segments.map length := by
    rw [laces, map_map]
    exact map_congr_left fun body hbody => toNat_ofNat_of_le (h.body_length body hbody)
  rw [hmap, body, length_flatten]

theorem readBody_bytes (h : Writable p) (rest : List UInt8) :
    readBody (headerOf p) (p.laces ++ p.body ++ rest) = .ok (p.laces, p.body, rest) := by
  have hlaces : readExact (headerOf p).count (p.laces ++ p.body ++ rest) =
      .ok (p.laces, p.body ++ rest) := by
    rw [append_assoc]
    exact readExact_append _ (laces_length p)
  have hbody : readExact (p.laces.map UInt8.toNat).sum (p.body ++ rest) = .ok (p.body, rest) :=
    readExact_append _ (laces_sum h).symm
  rw [readBody, hlaces, ok_bind]
  dsimp only
  rw [hbody, ok_bind]
  rw [show (headerOf p).raw.take 22 ++ [0, 0, 0, 0] ++ (headerOf p).raw.drop 26 = p.header 0
    from header_blank p _]
  simp [refuseIf, headerOf, ok_bind]

/-! ## Segments -/

namespace Inspect
variable {σ δ : Type} {lib : Libopus σ δ}

/-- The segments of a page, one after the other. -/
def parts (lib : Libopus σ δ) (st : Inspect δ) (bodies : List (List UInt8)) :
    Except OpusError (Inspect δ) :=
  bodies.foldlM (fun st body => st.lace lib body) st

theorem feed_eq (lib : Libopus σ δ) {bodies : List (List UInt8)}
    (h : ∀ body ∈ bodies, body.length ≤ 255)
    (st : Inspect δ) :
    st.feed lib (bodies.map fun body => UInt8.ofNat body.length) bodies.flatten =
      st.parts lib bodies := by
  induction bodies generalizing st with
  | nil => rfl
  | cons body rest ih =>
    have hbody := toNat_ofNat_of_le (h body (mem_cons_self ..))
    have hrest := ih fun b hb => h b (mem_cons_of_mem _ hb)
    rw [map_cons, flatten_cons, feed, hbody, take_left, drop_left]
    simp only [hrest, parts, foldlM_cons]

/-- The state in which the segments of the page `p` are taken. -/
def entered (st : Inspect δ) (p : Page) : Inspect δ := { st with
  serial := some p.serial
  sequence := (st.sequence + 1) % 2 ^ 32
  totalBytes := st.totalBytes + (p.bytes checksum).length }

/-- The inspector on a written page that continues the stream: first the segments, then the
    clock. -/
theorem page_bytes (hp : Writable p) {st : Inspect δ} (rest : List UInt8)
    (hsequence : p.sequence = st.sequence) (hserial : ∀ s ∈ st.serial, s = p.serial)
    (hfirst : p.first = st.serial.isNone) (hcontinued : p.continued = !st.packet.isEmpty)
    (hbytes : st.totalBytes + (p.bytes checksum).length ≤ u64Max)
    {fed : Inspect δ} (hfed : (st.entered p).parts lib p.segments = .ok fed) {outcome : Outcome δ}
    (hclose : fed.close st.packetIndex (headerOf p) = .ok outcome) :
    st.page lib (p.bytes checksum ++ rest) = .ok (outcome, rest) := by
  have hidentify : st.identify (headerOf p) =
      .ok { st with serial := some p.serial, sequence := (st.sequence + 1) % 2 ^ 32 } := by
    have hsame : st.serial.any (· != p.serial) = false := by
      rw [Option.any_eq_false]
      intro s hs
      simp [hserial s hs]
    have hflag : (p.flags &&& 2 != 0) = st.serial.isNone := (flagBits_first _ _ _).trans hfirst
    have hcont : (p.flags &&& 1 != 0) = !st.packet.isEmpty :=
      (flagBits_continued _ _ _).trans hcontinued
    simp only [identify, headerOf, hsame, hflag, hcont, hsequence, refuseIf, bne_self_eq_false,
      Bool.or_self, Bool.false_eq_true, if_false, ok_bind]
    cases st.packet.isEmpty <;> simp [ok_bind]
  have htotal : checkedAdd st.totalBytes (27 + p.segments.length + p.body.length) =
      some (st.totalBytes + (p.bytes checksum).length) := by
    rw [bytes_length] at hbytes ⊢
    exact checkedAdd_eq_some.mpr ⟨hbytes, rfl⟩
  rw [page, readHeader_bytes hp, ok_bind]
  dsimp only
  rw [hidentify, ok_bind, readBody_bytes hp, ok_bind]
  rw [show (headerOf p).count = p.segments.length from rfl, htotal, okOr, ok_bind]
  have hfeed : (st.entered p).feed lib p.laces p.body = .ok fed :=
    (feed_eq lib hp.body_length _).trans hfed
  change ((st.entered p).feed lib p.laces p.body >>= _) = _
  rw [hfeed, ok_bind, hclose, ok_bind]

end Inspect

end FlyOnTheWall.Opus
