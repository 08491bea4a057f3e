/-
  The strict inspector of complete archives.

  * One page at a time: the header, its identity in the stream, the lacing values and the
    body with the checksum, then the packets completed on the page and the page's clock.
  * `inspectCompleteArchive` accepts a whole file or says why not. It stops at the page that
    is marked last and refuses bytes after it.
-/
import FlyOnTheWall.Lib.U64
import FlyOnTheWall.Pipeline.Opus

namespace FlyOnTheWall.Opus
open Lib List

structure CompleteArchive where
  inputRateHz : ℕ
  pcmSamples48k : ℕ
  packets : ℕ
  bytes : ℕ
  deriving DecidableEq, Repr

def CompleteArchive.durationMs (a : CompleteArchive) : ℕ := a.pcmSamples48k / 48

def invalid (message : String) : OpusError := .container message

/-! ## Checksum -/

def crcEntry (i : UInt8) : UInt32 :=
  (List.range 8).foldl
    (fun value _ => if value &&& 0x80000000 != 0 then (value <<< 1) ^^^ 0x04c11db7 else value <<< 1)
    (i.toUInt32 <<< 24)

variable (bytes : List UInt8) {part : List UInt8}

def checksum : ℕ :=
  (bytes.foldl
    (fun (value : UInt32) byte => (value <<< 8) ^^^ crcEntry ((value >>> 24).toUInt8 ^^^ byte))
    0).toNat

theorem checksum_lt : checksum bytes < 256 ^ 4 := lt_of_lt_of_le (UInt32.toNat_lt _) (by decide)

/-- The container writer, given from outside: the packets of a closed stream become pages
    with right checksums. -/
structure Muxer where
  mux : ℕ → List Ogg.Packet → List UInt8
  framed : ∀ serial packets last, last.finish = .endStream → ∃ pages,
    Ogg.Framed (packets ++ [last]) pages ∧
      mux serial (packets ++ [last]) = Ogg.streamBytes checksum serial pages

/-- The writer that fills its pages. -/
def Muxer.filling : Muxer where
  mux serial packets := Ogg.streamBytes checksum serial (Ogg.paginate packets)
  framed _ packets last _ := ⟨_, Ogg.framed_paginate (packets ++ [last]), rfl⟩

/-! ## Comment header -/

def slice (start stop : ℕ) : List UInt8 := (bytes.take stop).drop start

/-- A vendor string and no user comments. -/
def tags (packet : List UInt8) : Bool :=
  if packet.length < 16 || slice packet 0 8 != "OpusTags".toUTF8.data.toList then false
  else
    let stop := 12 + Ogg.leNat (slice packet 8 12)
    slice packet stop (stop + 4) == [0, 0, 0, 0] && stop + 4 == packet.length

/-! ## Reading a page -/

def readExact (n : ℕ) (bytes : List UInt8) : Except OpusError (List UInt8 × List UInt8) :=
  if bytes.length < n then .error (.io .unexpectedEof) else .ok (bytes.take n, bytes.drop n)

structure PageHeader where
  raw : List UInt8
  flags : UInt8
  granule : ℕ
  serial : ℕ
  sequence : ℕ
  crc : ℕ
  count : ℕ

def PageHeader.eos (h : PageHeader) : Bool := h.flags &&& 4 != 0

def parseHeader (raw : List UInt8) : PageHeader where
  raw
  flags := raw.getD 5 0
  granule := Ogg.leNat (slice raw 6 14)
  serial := Ogg.leNat (slice raw 14 18)
  sequence := Ogg.leNat (slice raw 18 22)
  crc := Ogg.leNat (slice raw 22 26)
  count := (raw.getD 26 0).toNat

def readHeader : Except OpusError (PageHeader × List UInt8) := do
  refuseIf bytes.isEmpty (invalid "archive has no complete end-of-stream")
  let (raw, rest) ← readExact 27 bytes
  refuseIf (slice raw 0 4 != "OggS".toUTF8.data.toList || raw.getD 4 0 != 0 ||
      raw.getD 5 0 &&& 0xf8 != 0 || raw.getD 26 0 == 0)
    (invalid "invalid Ogg page header")
  .ok (parseHeader raw, rest)

/-- The lacing values and the body of a page whose checksum is right. -/
def readBody (h : PageHeader) (bytes : List UInt8) :
    Except OpusError (List UInt8 × List UInt8 × List UInt8) := do
  let (laces, bytes) ← readExact h.count bytes
  let (body, bytes) ← readExact (laces.map UInt8.toNat).sum bytes
  refuseIf (checksum (h.raw.take 22 ++ [0, 0, 0, 0] ++ h.raw.drop 26 ++ laces ++ body) != h.crc)
    (invalid "archive Ogg page checksum mismatch")
  .ok (laces, body, bytes)

/-! ## The stream -/

structure Inspect (δ : Type) where
  packet : List UInt8
  decoder : Option δ
  serial : Option ℕ
  sequence : ℕ
  packetIndex : ℕ
  decoded : ℕ
  totalBytes : ℕ
  inputRate : ℕ
  skip : ℕ
  previousGranule : Option ℕ
  ordinaryOffset : Option ℕ

namespace Inspect
variable {σ δ : Type}

def start : Inspect δ := ⟨[], none, none, 0, 0, 0, 0, 0, 0, none, none⟩

variable (lib : Libopus σ δ) (st : Inspect δ)

def identify (h : PageHeader) : Except OpusError (Inspect δ) := do
  refuseIf (h.sequence != st.sequence || st.serial.any (· != h.serial) ||
      (h.flags &&& 2 != 0) != st.serial.isNone)
    (invalid "archive stream identity or page sequence changed")
  refuseIf ((h.flags &&& 1 != 0) == st.packet.isEmpty)
    (invalid "archive packet continuation is inconsistent")
  .ok { st with serial := some h.serial, sequence := (st.sequence + 1) % 2 ^ 32 }

def acceptHead : Except OpusError (Inspect δ) := do
  refuseIf (st.packet.length != 19 || slice st.packet 0 8 != "OpusHead".toUTF8.data.toList ||
      st.packet.getD 8 0 != 1 || st.packet.getD 9 0 != 1 || slice st.packet 16 18 != [0, 0] ||
      st.packet.getD 18 0 != 0)
    (invalid "archive is not the supported mono Opus profile")
  let rate := Ogg.leNat (slice st.packet 12 16)
  refuseIf (!supportedRates.contains rate) (.unsupportedRate rate)
  let decoder ← lib.decoderCreate
  .ok { st with
    inputRate := rate
    skip := Ogg.leNat (slice st.packet 10 12)
    decoder := some decoder }

def acceptTags : Except OpusError (Inspect δ) := do
  refuseIf (!tags st.packet) (invalid "archive has an unsupported comment header")
  .ok st

def acceptAudio : Except OpusError (Inspect δ) := do
  refuseIf st.packet.isEmpty (invalid "archive contains an empty audio packet")
  let decoder ← okOr st.decoder (invalid "archive has no decoder header")
  let result := lib.decode decoder st.packet
  refuseIf (result.1 < 0) (.codec "opus_decode_float" result.1)
  let decoded ← okOr (checkedAdd st.decoded result.1.toNat)
    (invalid "archive sample count overflow")
  .ok { st with decoder := some result.2, decoded }

/-- `packet` holds a whole packet. -/
def acceptPacket : Except OpusError (Inspect δ) :=
  match st.packetIndex with
  | 0 => st.acceptHead lib
  | 1 => st.acceptTags
  | _ => st.acceptAudio lib

/-- One lacing value: the next part of a packet, its last one if it is short. -/
def lace (part : List UInt8) : Except OpusError (Inspect δ) := do
  refuseIf (st.packet.length + part.length > maxPacketBytes)
    (invalid "archive packet exceeds supported size")
  let st := { st with packet := st.packet ++ part }
  if part.length = 255 then .ok st
  else
    let st ← st.acceptPacket lib
    .ok { st with packetIndex := st.packetIndex + 1, packet := [] }

def feed (lib : Libopus σ δ) : List UInt8 → List UInt8 → Inspect δ → Except OpusError (Inspect δ)
  | [], _, st => .ok st
  | length :: laces, body, st => do
    let st ← st.lace lib (body.take length.toNat)
    feed lib laces (body.drop length.toNat) st

end Inspect

inductive Outcome (δ : Type)
  | more (st : Inspect δ)
  | done (archive : CompleteArchive)

/-- The clock of a page; `before` packets were complete when it began. -/
def Inspect.close {δ : Type} (st : Inspect δ) (before : ℕ) (h : PageHeader) :
    Except OpusError (Outcome δ) :=
  if before < 2 then do
    refuseIf (st.packetIndex != before + 1 || !st.packet.isEmpty || h.eos || h.granule != 0)
      (invalid "invalid archive header page")
    .ok (.more st)
  else if st.packetIndex = before then do
    refuseIf (h.eos || h.granule != u64Max) (invalid "archive page has no completed packet")
    .ok (.more st)
  else do
    refuseIf (h.granule == u64Max || st.previousGranule.any (h.granule < ·))
      (invalid "archive granule position regressed")
    let st := { st with previousGranule := some h.granule }
    if !h.eos then
      let delta ← okOr (checkedSub h.granule st.decoded)
        (invalid "archive page precedes decoded audio")
      refuseIf ((delta != 0 && delta != st.skip) || st.ordinaryOffset.any (· != delta))
        (invalid "archive ordinary page clock is inconsistent")
      .ok (.more { st with ordinaryOffset := some delta })
    else
      refuseIf (!st.packet.isEmpty || h.granule < st.skip || h.granule > st.decoded)
        (invalid "archive end is not backed by decoded audio")
      let pcm := h.granule - st.skip
      refuseIf (pcm % (granuleRate / st.inputRate) != 0)
        (invalid "archive end is not aligned to its encoder sample rate")
      .ok (.done ⟨st.inputRate, pcm, st.packetIndex - 2, st.totalBytes⟩)

/-- One page from the front of `bytes`. -/
def Inspect.page {σ δ : Type} (lib : Libopus σ δ) (st : Inspect δ) (bytes : List UInt8) :
    Except OpusError (Outcome δ × List UInt8) := do
  let (h, bytes) ← readHeader bytes
  let st ← st.identify h
  let (laces, body, bytes) ← readBody h bytes
  let totalBytes ← okOr (checkedAdd st.totalBytes (27 + h.count + body.length))
    (invalid "archive byte count overflow")
  let fed ← { st with totalBytes := totalBytes }.feed lib laces body
  let outcome ← fed.close st.packetIndex h
  .ok (outcome, bytes)

/-! What is read is cut off the front, whatever follows it. -/

theorem readExact_append {n : ℕ} (rest : List UInt8) (h : part.length = n) :
    readExact n (part ++ rest) = .ok (part, rest) := by
  subst h
  simp [readExact]

section Cut
variable {bytes rest laces body : List UInt8} {h : PageHeader}

theorem readExact_cut {n : ℕ} (hread : readExact n bytes = .ok (part, rest)) :
    bytes = part ++ rest ∧ part.length = n := by
  rw [readExact] at hread
  split at hread
  · cases hread
  · obtain ⟨rfl, rfl⟩ := Prod.mk.inj (Except.ok.inj hread)
    refine ⟨(take_append_drop n bytes).symm, ?_⟩
    rw [length_take]
    omega

theorem readHeader_cut (hread : readHeader bytes = .ok (h, rest)) :
    ∃ raw, bytes = raw ++ rest ∧ raw.length = 27 ∧
      ∀ more, readHeader (raw ++ more) = .ok (h, more) := by
  obtain ⟨_, hread⟩ := bind_rest hread
  obtain ⟨⟨raw, after⟩, hraw, hread⟩ := bind_eq_ok.mp hread
  obtain ⟨hbytes, hlen⟩ := readExact_cut hraw
  obtain ⟨hknown, hread⟩ := refuseIf_bind_ok.mp hread
  obtain ⟨rfl, rfl⟩ := Prod.mk.inj (Except.ok.inj hread)
  refine ⟨raw, hbytes, hlen, fun more => ?_⟩
  have hsome : (raw ++ more).isEmpty = false := by
    cases raw with
    | nil => cases hlen
    | cons => rfl
  rw [readHeader, hsome, refuseIf_false, ok_bind, readExact_append more hlen, ok_bind]
  exact refuseIf_bind_ok.mpr ⟨hknown, rfl⟩

theorem readBody_cut (hread : readBody h bytes = .ok (laces, body, rest)) :
    ∃ used, bytes = used ++ rest ∧ ∀ more, readBody h (used ++ more) = .ok (laces, body, more) := by
  obtain ⟨⟨laces', after⟩, hlaces, hread⟩ := bind_eq_ok.mp hread
  obtain ⟨⟨body', after'⟩, hbody, hread⟩ := bind_eq_ok.mp hread
  obtain ⟨hsum, hread⟩ := refuseIf_bind_ok.mp hread
  cases hread
  obtain ⟨rfl, hcount⟩ := readExact_cut hlaces
  obtain ⟨rfl, hlen⟩ := readExact_cut hbody
  refine ⟨laces ++ body, (append_assoc ..).symm, fun more => ?_⟩
  rw [readBody, append_assoc, readExact_append _ hcount, ok_bind]
  dsimp only
  rw [readExact_append more hlen, ok_bind]
  exact refuseIf_bind_ok.mpr ⟨hsum, rfl⟩

variable {σ δ : Type} {lib : Libopus σ δ} {st : Inspect δ} {outcome : Outcome δ}

variable (hpage : st.page lib bytes = .ok (outcome, rest))
include hpage

/-- Everything a page has to pass. -/
theorem Inspect.page_eq_ok :
    ∃ h after laces body total, ∃ named fed : Inspect δ, readHeader bytes = .ok (h, after) ∧
      st.identify h = .ok named ∧ readBody h after = .ok (laces, body, rest) ∧
      okOr (checkedAdd named.totalBytes (27 + h.count + body.length))
        (invalid "archive byte count overflow") = .ok total ∧
      { named with totalBytes := total }.feed lib laces body = .ok fed ∧
      fed.close named.packetIndex h = .ok outcome := by
  obtain ⟨⟨h, after⟩, hheader, hpage⟩ := bind_eq_ok.mp hpage
  obtain ⟨named, hnamed, hpage⟩ := bind_eq_ok.mp hpage
  obtain ⟨⟨laces, body, after'⟩, hbody, hpage⟩ := bind_eq_ok.mp hpage
  obtain ⟨total, htotal, hpage⟩ := bind_eq_ok.mp hpage
  obtain ⟨fed, hfed, hpage⟩ := bind_eq_ok.mp hpage
  obtain ⟨_, hclose, hpage⟩ := bind_eq_ok.mp hpage
  cases hpage
  exact ⟨h, after, laces, body, total, named, fed, hheader, hnamed, hbody, htotal, hfed, hclose⟩

theorem Inspect.page_cut : ∃ used, used ≠ [] ∧ bytes = used ++ rest ∧
    ∀ more, st.page lib (used ++ more) = .ok (outcome, more) := by
  obtain ⟨h, after, laces, body, total, named, fed, hheader, hnamed, hbody, htotal, hfed, hclose⟩ :=
    page_eq_ok hpage
  obtain ⟨raw, rfl, hlen, hraw⟩ := readHeader_cut hheader
  obtain ⟨used, rfl, hused⟩ := readBody_cut hbody
  refine ⟨raw ++ used, ?_, (append_assoc ..).symm, fun more => ?_⟩
  · intro hnil
    rw [(append_eq_nil_iff.mp hnil).1] at hlen
    cases hlen
  · rw [page, append_assoc, hraw, ok_bind]
    dsimp only
    rw [hnamed, ok_bind, hused, ok_bind]
    rw [htotal, ok_bind, hfed, ok_bind, hclose, ok_bind]

theorem Inspect.page_rest_lt : rest.length < bytes.length := by
  obtain ⟨used, hne, rfl, -⟩ := page_cut hpage
  have := length_pos_of_ne_nil hne
  rw [length_append]
  omega

end Cut

def inspectFrom {σ δ : Type} (lib : Libopus σ δ) (st : Inspect δ) (bytes : List UInt8) :
    Except OpusError CompleteArchive :=
  match _h : st.page lib bytes with
  | .error e => .error e
  | .ok (.more st', rest) => inspectFrom lib st' rest
  | .ok (.done archive, rest) =>
    if rest.isEmpty then .ok archive else .error (invalid "archive has data after end-of-stream")
termination_by bytes.length
decreasing_by exact Inspect.page_rest_lt _h

def inspectCompleteArchive {σ δ : Type} (lib : Libopus σ δ) (bytes : List UInt8) :
    Except OpusError CompleteArchive :=
  inspectFrom lib .start bytes

end FlyOnTheWall.Opus
