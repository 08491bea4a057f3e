/-
  The Ogg container, as far as one logical stream needs it.

  * `leBytes`, `leNat`: little-endian numbers.
  * A packet is cut into segments of 255 bytes and a shorter last one, possibly empty; the
    length of a segment is its lacing value. Pages carry up to 255 segments each.
  * `Framed`: a way to cut the segments of a sequence of packets into pages. A page ends
    where a packet asks for it and may end anywhere else.
  * `paginate` is the cut that fills every page as far as it goes.
-/
import Mathlib.Algebra.Order.BigOperators.Group.List
import Mathlib.Algebra.Order.Ring.Nat

namespace FlyOnTheWall.Lib.Ogg
open List

/-! ## Numbers -/

/-- The low `k` bytes of `n`, the lowest first. -/
def leBytes : ℕ → ℕ → List UInt8
  | 0, _ => []
  | k + 1, n => UInt8.ofNat n :: leBytes k (n / 256)

def leNat (bytes : List UInt8) : ℕ := bytes.foldr (fun b n => b.toNat + 256 * n) 0

@[simp] theorem leBytes_length (k n : ℕ) : (leBytes k n).length = k := by
  induction k generalizing n with
  | zero => rfl
  | succ k ih => simp [leBytes, ih]

theorem leNat_leBytes (k n : ℕ) : leNat (leBytes k n) = n % 256 ^ k := by
  induction k generalizing n with
  | zero => simp [leBytes, leNat, Nat.mod_one]
  | succ k ih =>
    have hrest : leNat (leBytes k (n / 256)) = n / 256 % 256 ^ k := ih (n / 256)
    have hbyte : (UInt8.ofNat n).toNat = n % 256 := UInt8.toNat_ofNat'
    have hsplit : n % 256 ^ (k + 1) = n % 256 + 256 * (n / 256 % 256 ^ k) := by
      rw [Nat.pow_succ', Nat.mod_mul]
    show (UInt8.ofNat n).toNat + 256 * leNat (leBytes k (n / 256)) = n % 256 ^ (k + 1)
    rw [hbyte, hrest, hsplit]

theorem leNat_lt (bytes : List UInt8) : leNat bytes < 256 ^ bytes.length := by
  induction bytes with
  | nil => exact one_pos
  | cons b bytes ih =>
    have hb := b.toNat_lt
    show b.toNat + 256 * leNat bytes < 256 ^ (bytes.length + 1)
    omega

theorem leNat_leBytes_of_lt {k n : ℕ} (h : n < 256 ^ k) : leNat (leBytes k n) = n := by
  rw [leNat_leBytes, Nat.mod_eq_of_lt h]

/-! ## Packets and segments -/

inductive EndInfo
  | normal
  | endPage
  | endStream
  deriving DecidableEq, Repr

structure Packet where
  data : List UInt8
  granule : ℕ
  finish : EndInfo
  deriving DecidableEq, Repr

/-- `ends` holds the granule position and the end of the packet this segment completes. -/
structure Segment where
  body : List UInt8
  ends : Option (ℕ × EndInfo)
  deriving DecidableEq, Repr

def segmentsOf (granule : ℕ) (finish : EndInfo) (data : List UInt8) : List Segment :=
  if data.length < 255 then [⟨data, some (granule, finish)⟩]
  else ⟨data.take 255, none⟩ :: segmentsOf granule finish (data.drop 255)
termination_by data.length
decreasing_by simp only [List.length_drop]; omega

def Packet.segments (p : Packet) : List Segment := segmentsOf p.granule p.finish p.data

variable {p : Packet}

theorem Packet.segments_of_short (h : p.data.length < 255) :
    p.segments = [⟨p.data, some (p.granule, p.finish)⟩] := by
  rw [Packet.segments, segmentsOf, if_pos h]

variable (granule : ℕ) (finish : EndInfo) (data : List UInt8)

theorem segmentsOf_length : (segmentsOf granule finish data).length = data.length / 255 + 1 := by
  induction hlen : data.length using Nat.strongRecOn generalizing data with
  | ind n ih =>
    subst hlen
    rw [segmentsOf]
    split
    · next hshort =>
      rw [Nat.div_eq_of_lt hshort]
      rfl
    · have hdrop : (data.drop 255).length = data.length - 255 := length_drop
      rw [length_cons, ih (data.drop 255).length (by omega) _ rfl, hdrop]
      omega

theorem segmentsOf_body_le : ∀ s ∈ segmentsOf granule finish data, s.body.length ≤ 255 := by
  induction hlen : data.length using Nat.strongRecOn generalizing data with
  | ind n ih =>
    intro s hs
    rw [segmentsOf] at hs
    split at hs
    · next hshort =>
      rw [mem_singleton.mp hs]
      exact le_of_lt hshort
    · have hdrop : (data.drop 255).length = data.length - 255 := length_drop
      rcases mem_cons.mp hs with rfl | hs
      · exact length_take_le 255 data
      · exact ih (data.drop 255).length (by omega) _ rfl s hs

/-! ## Pages -/

def flagBits (continued first last : Bool) : UInt8 :=
  (if continued then 1 else 0) ||| (if first then 2 else 0) ||| (if last then 4 else 0)

theorem flagBits_continued :
    ∀ continued first last, (flagBits continued first last &&& 1 != 0) = continued := by decide

theorem flagBits_first :
    ∀ continued first last, (flagBits continued first last &&& 2 != 0) = first := by decide

theorem flagBits_last :
    ∀ continued first last, (flagBits continued first last &&& 4 != 0) = last := by decide

theorem flagBits_known :
    ∀ continued first last, flagBits continued first last &&& 0xf8 = 0 := by decide

structure Page where
  continued : Bool
  first : Bool
  last : Bool
  granule : ℕ
  serial : ℕ
  sequence : ℕ
  segments : List (List UInt8)
  deriving DecidableEq, Repr

namespace Page

def flags (p : Page) : UInt8 := flagBits p.continued p.first p.last

def laces (p : Page) : List UInt8 := p.segments.map fun body => UInt8.ofNat body.length

def body (p : Page) : List UInt8 := p.segments.flatten

def header (p : Page) (crc : ℕ) : List UInt8 :=
  [0x4f, 0x67, 0x67, 0x53, 0, p.flags] ++ leBytes 8 p.granule ++ leBytes 4 p.serial ++
    leBytes 4 p.sequence ++ leBytes 4 crc ++ [UInt8.ofNat p.segments.length]

/-- The checksum is taken with its own field zero. -/
def bytes (checksum : List UInt8 → ℕ) (p : Page) : List UInt8 :=
  p.header (checksum (p.header 0 ++ p.laces ++ p.body)) ++ p.laces ++ p.body

@[simp] theorem header_length (p : Page) (crc : ℕ) : (p.header crc).length = 27 := by
  simp [header]

@[simp] theorem laces_length (p : Page) : p.laces.length = p.segments.length := by
  simp [laces]

theorem bytes_length (checksum : List UInt8 → ℕ) (p : Page) :
    (p.bytes checksum).length = 27 + p.segments.length + p.body.length := by
  simp [bytes, add_assoc]

end Page

variable (segs : List Segment)

/-- The granule position of the last packet completed among `segs`, all ones if there is
    none. -/
def granuleOf : ℕ :=
  ((segs.filterMap Segment.ends).getLast?.map Prod.fst).getD (2 ^ 64 - 1)

def endsStream : Bool :=
  match segs.getLast? with
  | some s => s.ends.any (·.2 == .endStream)
  | none => false

def cutsPacket : Bool :=
  match segs.getLast? with
  | some s => s.ends.isNone
  | none => false

def pageOf (continued first : Bool) (serial sequence : ℕ) (segs : List Segment) : Page where
  continued
  first
  last := endsStream segs
  granule := granuleOf segs
  serial
  sequence
  segments := segs.map Segment.body

/-- The pages of a stream from its `sequence`th one on. -/
def pagesFrom (serial : ℕ) : Bool → Bool → ℕ → List (List Segment) → List Page
  | _, _, _, [] => []
  | continued, first, sequence, segs :: rest =>
    pageOf continued first serial sequence segs ::
      pagesFrom serial (cutsPacket segs) false ((sequence + 1) % 2 ^ 32) rest

/-- `pages` are the segments of `packets`, cut into pages that could be written. -/
structure Framed (packets : List Packet) (pages : List (List Segment)) : Prop where
  flatten_eq : pages.flatten = packets.flatMap Packet.segments
  ne_nil : ∀ segs ∈ pages, segs ≠ []
  length_le : ∀ segs ∈ pages, segs.length ≤ 255
  breaks : ∀ segs ∈ pages, ∀ s ∈ segs.dropLast, ∀ e ∈ s.ends, e.2 = .normal

variable {packets : List Packet} {pages : List (List Segment)}

/-- A short packet that closes its page is alone on the first page. -/
theorem Framed.of_cons (h : Framed (p :: packets) pages) (hshort : p.data.length < 255)
    (hfinish : p.finish ≠ .normal) :
    ∃ rest, pages = [⟨p.data, some (p.granule, p.finish)⟩] :: rest ∧ Framed packets rest := by
  have hflat := h.flatten_eq
  rw [flatMap_cons, Packet.segments_of_short hshort, singleton_append] at hflat
  obtain _ | ⟨segs, rest⟩ := pages
  · cases hflat
  · obtain ⟨s, more, rfl⟩ := exists_cons_of_ne_nil (h.ne_nil segs (mem_cons_self ..))
    obtain ⟨rfl, hmore⟩ := cons.inj hflat
    have hnil : more = [] := by
      by_contra hcons
      refine hfinish (h.breaks _ (mem_cons_self ..) ⟨p.data, some (p.granule, p.finish)⟩ ?_
        (p.granule, p.finish) rfl)
      rw [dropLast_cons_of_ne_nil hcons]
      exact mem_cons_self ..
    subst hnil
    exact ⟨rest, rfl, hmore, fun q hq => h.ne_nil q (mem_cons_of_mem _ hq),
      fun q hq => h.length_le q (mem_cons_of_mem _ hq),
      fun q hq => h.breaks q (mem_cons_of_mem _ hq)⟩

section
variable (checksum : List UInt8 → ℕ) (serial : ℕ) (pages : List (List Segment))

/-- The stream of a framing, as bytes. -/
def streamBytes : List UInt8 :=
  (pagesFrom serial false true 0 pages).flatMap (Page.bytes checksum)

/-- A page costs at most 28 bytes for each of its segments, and their contents. -/
theorem streamBytes_length_le (hne : ∀ segs ∈ pages, segs ≠ [])
    (hbody : ∀ segs ∈ pages, ∀ s ∈ segs, s.body.length ≤ 255) :
    (streamBytes checksum serial pages).length ≤ 283 * pages.flatten.length := by
  suffices h : ∀ continued first sequence,
      ((pagesFrom serial continued first sequence pages).flatMap (Page.bytes checksum)).length ≤
        283 * pages.flatten.length from h _ _ _
  induction pages with
  | nil => exact fun _ _ _ => Nat.zero_le _
  | cons segs pages ih =>
    intro continued first sequence
    have hrest := ih (fun q hq => hne q (mem_cons_of_mem _ hq))
      (fun q hq => hbody q (mem_cons_of_mem _ hq)) (cutsPacket segs) false
      ((sequence + 1) % 2 ^ 32)
    have hpos : 0 < segs.length := length_pos_iff.mpr (hne segs (mem_cons_self ..))
    have hsum : (pageOf continued first serial sequence segs).body.length ≤ 255 * segs.length := by
      rw [Page.body, length_flatten]
      refine (sum_le_card_nsmul _ 255 ?_).trans ?_
      · intro n hn
        simp only [pageOf, map_map, mem_map, Function.comp_apply] at hn
        obtain ⟨s, hs, rfl⟩ := hn
        exact hbody segs (mem_cons_self ..) s hs
      · simp [pageOf, mul_comm]
    have hcount : (pageOf continued first serial sequence segs).segments.length = segs.length := by
      simp [pageOf]
    rw [pagesFrom, flatMap_cons, length_append, Page.bytes_length, hcount,
      flatten_cons, length_append]
    omega

end

/-- The size of a stream whose packets have at most `limit` bytes. -/
theorem Framed.streamBytes_le (h : Framed packets pages) (checksum : List UInt8 → ℕ) (serial : ℕ)
    {limit : ℕ} (hlimit : ∀ p ∈ packets, p.data.length ≤ limit) :
    (streamBytes checksum serial pages).length ≤ 283 * ((limit / 255 + 1) * packets.length) := by
  have hbody : ∀ segs ∈ pages, ∀ s ∈ segs, s.body.length ≤ 255 := by
    intro segs hsegs s hs
    have hmem : s ∈ packets.flatMap Packet.segments := by
      rw [← h.flatten_eq]
      exact mem_flatten.mpr ⟨segs, hsegs, hs⟩
    obtain ⟨p, -, hp⟩ := mem_flatMap.mp hmem
    exact segmentsOf_body_le _ _ _ s hp
  have hcount : pages.flatten.length ≤ (limit / 255 + 1) * packets.length := by
    rw [h.flatten_eq, length_flatMap, mul_comm]
    refine (sum_le_card_nsmul _ (limit / 255 + 1) ?_).trans (by simp)
    intro n hn
    obtain ⟨p, hp, rfl⟩ := mem_map.mp hn
    rw [Packet.segments, segmentsOf_length]
    exact Nat.add_le_add_right (Nat.div_le_div_right (hlimit p hp)) 1
  exact (streamBytes_length_le checksum serial pages h.ne_nil hbody).trans
    (Nat.mul_le_mul_left 283 hcount)

/-! ## Filling pages -/

def closesPage (s : Segment) : Bool := s.ends.any (·.2 != .normal)

/-- `page` holds the segments of the page being filled. -/
def fill (page : List Segment) : List Segment → List (List Segment)
  | [] => if page = [] then [] else [page]
  | s :: rest =>
    if closesPage s || page.length + 1 == 255 then (page ++ [s]) :: fill [] rest
    else fill (page ++ [s]) rest

def paginate (packets : List Packet) : List (List Segment) :=
  fill [] (packets.flatMap Packet.segments)

theorem fill_flatten (page segs : List Segment) : (fill page segs).flatten = page ++ segs := by
  induction segs generalizing page with
  | nil => by_cases h : page = [] <;> simp [fill, h]
  | cons s rest ih =>
    rw [fill]
    split
    · simp [ih]
    · rw [ih, append_assoc, singleton_append]

/-- What may be left open in `page` while the rest is filled. -/
structure Fillable (page : List Segment) : Prop where
  length_lt : page.length < 255
  open_ok : ∀ s ∈ page, closesPage s = false

theorem fillable_nil : Fillable [] := ⟨by simp, by simp⟩

theorem fill_ok (page segs : List Segment) (h : Fillable page) :
    ∀ q ∈ fill page segs, q ≠ [] ∧ q.length ≤ 255 ∧ ∀ s ∈ q.dropLast, closesPage s = false := by
  induction segs generalizing page with
  | nil =>
    intro q hq
    have hlt := h.length_lt
    by_cases hnil : page = []
    · simp [fill, hnil] at hq
    · obtain rfl : q = page := by simpa [fill, hnil] using hq
      exact ⟨hnil, by omega, fun s hs => h.open_ok s (dropLast_subset _ hs)⟩
  | cons s rest ih =>
    have hlt := h.length_lt
    rw [fill]
    split
    · intro q hq
      rcases mem_cons.mp hq with rfl | hq
      · refine ⟨by simp, by simp; omega, fun s hs => h.open_ok s ?_⟩
        simpa using hs
      · exact ih [] fillable_nil q hq
    · next hopen =>
      simp only [Bool.or_eq_true, beq_iff_eq, not_or, Bool.not_eq_true] at hopen
      refine ih _ ⟨by simp; omega, fun s' hs' => ?_⟩
      rcases mem_append.mp hs' with hs' | hs'
      · exact h.open_ok s' hs'
      · rw [mem_singleton.mp hs']
        exact hopen.1

theorem framed_paginate (packets : List Packet) : Framed packets (paginate packets) where
  flatten_eq := by rw [paginate, fill_flatten, nil_append]
  ne_nil := fun segs h => (fill_ok [] _ fillable_nil segs h).1
  length_le := fun segs h => (fill_ok [] _ fillable_nil segs h).2.1
  breaks := fun segs h s hs e he => by
    have hopen := (fill_ok [] _ fillable_nil segs h).2.2 s hs
    have he' : s.ends = some e := he
    simpa [closesPage, he'] using hopen

end FlyOnTheWall.Lib.Ogg
