/-
  A saved track, read one window at a time by the cleanup after a meeting.

  * `plan`: the windows of a track of a given length; each one starts inside the one before.
  * `Source`: a track that hands out its samples in order.
  * `nextWindow`: the audio of one window. A window whose words are already stored is decoded
    too and only not copied out, so what the reader holds afterwards does not depend on which
    windows are skipped (`nextWindow_skip`).
  * `windows_exact`: the windows cover the track, and each is read exactly.
  * `BleedFilter`: a track with every stretch that is only a copy of the other track silenced.
    Which frames are copies is decided in floating point and is a parameter.
-/
import FlyOnTheWall.Lib.Storage
import Mathlib.Data.List.Basic
import Mathlib.Data.List.Chain

namespace FlyOnTheWall.PostPass
open Lib List

abbrev Pcm := List Int16

/-- Samples in `ms` at 16 kHz. -/
def samples (ms : ℕ) : ℕ := ms * 16000 / 1000

/-- Milliseconds in a number of samples at 16 kHz. -/
def millis (samples : ℕ) : ℕ := samples * 1000 / 16000

/-! ## The plan -/

/-- The windows from `start` on. The source asserts that the overlap is shorter than a window. -/
def planFrom (total window overlap start : ℕ) : List (ℕ × ℕ) :=
  if overlap < window ∧ start + window < total then
    (start, start + window) :: planFrom total window overlap (start + window - overlap)
  else [(start, min (start + window) total)]
termination_by total - start

def plan (total window overlap : ℕ) : List (ℕ × ℕ) :=
  if total = 0 then [] else planFrom total window overlap 0

example : plan 31 30 2 = [(0, 30), (28, 31)] := by
  simp [plan, planFrom]

/-! ## Tracks -/

/-- `PcmSource`. `left` bounds what a track can still hand out. -/
structure Source (σ : Type) where
  total : σ → ℕ
  read : σ → ℕ → Except String (Pcm × σ)
  left : σ → ℕ
  read_left : ∀ {s : σ} {limit : ℕ} {pcm : Pcm} {s' : σ}, read s limit = .ok (pcm, s') →
    left s' + pcm.length ≤ left s

/-- `MemoryTrack`: the samples not yet read, and the length of the track. -/
structure MemoryTrack where
  pcm : Pcm
  length : ℕ

def memorySource : Source MemoryTrack where
  total t := t.length
  read t limit := .ok (t.pcm.take limit, { t with pcm := t.pcm.drop limit })
  left t := t.pcm.length
  read_left := by
    intro s limit pcm s' h
    cases h
    simp only [List.length_take, List.length_drop]
    omega

variable {σ τ : Type}

/-! ## Windows of a track -/

/-- The reader of a track: audio from `bufStart` on, and the rest of the track. -/
structure WindowReader (σ : Type) where
  source : σ
  buf : Pcm
  bufStart : ℕ

structure PcmWindow where
  index : ℕ
  start : ℕ
  pcm : Pcm
  deriving DecidableEq

def WindowReader.new (track : σ) : WindowReader σ := ⟨track, [], 0⟩

variable (r : WindowReader σ) (start : ℕ)

/-- Drop audio before `start`. -/
def WindowReader.dropBefore : WindowReader σ :=
  let drop := min (start - r.bufStart) r.buf.length
  { r with buf := r.buf.drop drop, bufStart := r.bufStart + drop }

theorem WindowReader.dropBefore_end :
    (r.dropBefore start).bufStart + (r.dropBefore start).buf.length =
      r.bufStart + r.buf.length := by
  simp only [WindowReader.dropBefore, length_drop]
  omega

def endedEarly : String := "the saved track ended before its recorded length"

/-- Read on until the window's end is in the buffer. -/
def fill (src : Source σ) (start stop : ℕ) (r : WindowReader σ) : Except String (WindowReader σ) :=
  if r.bufStart + r.buf.length < stop then
    match src.read r.source (min (stop - r.bufStart - r.buf.length) 65536) with
    | .error e => .error e
    | .ok ([], _) => .error endedEarly
    | .ok (x :: more, source) =>
      fill src start stop
        (WindowReader.dropBefore { r with source, buf := r.buf ++ x :: more } start)
  else .ok r
termination_by stop - (r.bufStart + r.buf.length)
decreasing_by
  rw [WindowReader.dropBefore_end]
  simp only [List.length_append, List.length_cons]
  omega

variable (src : Source σ)

/-- The audio of the window `bounds`, which is number `index` of the plan. -/
def nextWindow (skip : ℕ → Bool) (index : ℕ) (bounds : ℕ × ℕ)
    (r : WindowReader σ) : Except String (PcmWindow × WindowReader σ) :=
  match fill src bounds.1 bounds.2 (r.dropBefore bounds.1) with
  | .error e => .error e
  | .ok r =>
    let pcm := (r.buf.take (bounds.2 - r.bufStart)).drop (bounds.1 - r.bufStart)
    .ok (⟨index, bounds.1, if skip index then [] else pcm⟩, r)

/-- Every window is copied out. -/
abbrev noSkip : ℕ → Bool := fun _ => false

/-- Skipping a window changes neither whether it can be read nor what the reader holds then. -/
theorem nextWindow_skip (skip : ℕ → Bool) (index : ℕ) (bounds : ℕ × ℕ) (r : WindowReader σ) :
    nextWindow src skip index bounds r =
      (nextWindow src noSkip index bounds r).map
        fun p => ({ p.1 with pcm := if skip index then [] else p.1.pcm }, p.2) := by
  unfold nextWindow
  cases fill src bounds.1 bounds.2 (r.dropBefore bounds.1) <;> rfl

/-! ## Every window of a track -/

/-- Short reads of any size: a read hands out some of what is left, and nothing only at the end. -/
def Source.HandsOut (rest : σ → Pcm) : Prop :=
  ∀ s limit, 0 < limit → rest s ≠ [] → ∃ n s', 0 < n ∧ n ≤ limit ∧
    src.read s limit = .ok ((rest s).take n, s') ∧ rest s' = (rest s).drop n

/-- The windows `bs`, one `next_window` after another, each with the reader after it. -/
def readWindows (src : Source σ) (skip : ℕ → Bool) :
    ℕ → List (ℕ × ℕ) → WindowReader σ → Except String (List (PcmWindow × WindowReader σ))
  | _, [], _ => .ok []
  | index, b :: bs, r => do
    let p ← nextWindow src skip index b r
    let ps ← readWindows src skip (index + 1) bs p.2
    return p :: ps

section Exact

variable {src : Source σ} {rest : σ → Pcm} {track : Pcm} {r r' : WindowReader σ}
  {first last start stop : ℕ}

/-- A pass of the loop only appends to what the reader holds of the window. -/
theorem fill_grows (h : fill src start stop r = .ok r') (hstart : r.bufStart = start) :
    r.buf.length ≤ r'.buf.length := by
  fun_induction fill src start stop r with
  | case1 | case2 => cases h
  | case3 r hlt x more source hread ih =>
    have hmore := ih h (by simp [WindowReader.dropBefore, hstart])
    simp only [WindowReader.dropBefore, hstart, Nat.sub_self, Nat.zero_min, drop_zero,
      length_append] at hmore
    omega
  | case4 r hge =>
    cases h
    exact Nat.le_refl _

/-- The reader holds the samples from `first` to `last`, and the rest of the track follows. -/
structure Holds (rest : σ → Pcm) (track : Pcm) (first last : ℕ) (r : WindowReader σ) : Prop where
  bufStart : r.bufStart = first
  buf : r.buf = (track.take last).drop first
  rest : rest r.source = track.drop last
  first_le : first ≤ last
  last_le : last ≤ track.length

theorem Holds.length (h : Holds rest track first last r) : r.buf.length = last - first := by
  rw [h.buf, length_drop, length_take, Nat.min_eq_left h.last_le]

theorem Holds.dropBefore (h : Holds rest track first last r) (hfirst : first ≤ start)
    (hlast : start ≤ last) : Holds rest track start last (r.dropBefore start) := by
  have hdrop : min (start - r.bufStart) r.buf.length = start - first := by
    rw [h.bufStart, h.length]
    omega
  unfold WindowReader.dropBefore
  dsimp only
  rw [hdrop, h.bufStart, h.buf, drop_drop, Nat.add_sub_cancel' hfirst]
  exact ⟨rfl, rfl, h.rest, hlast, h.last_le⟩

theorem fill_holds (hsrc : src.HandsOut rest) (h : Holds rest track start last r)
    (hlast : last ≤ stop) (hstop : stop ≤ track.length) :
    ∃ r', fill src start stop r = .ok r' ∧ Holds rest track start stop r' := by
  induction hleft : stop - last using Nat.strongRecOn generalizing last r with
  | ind left ih =>
    have hend : r.bufStart + r.buf.length = last := by
      rw [h.bufStart, h.length]
      have := h.first_le
      omega
    rw [fill, hend]
    split
    · next hlt =>
      have hne : rest r.source ≠ [] := by
        rw [h.rest]
        simp
        omega
      obtain ⟨n, source, hpos, hle, hread, hrest⟩ := hsrc r.source
        (min (stop - r.bufStart - r.buf.length) 65536) (by omega) hne
      rw [h.rest] at hread hrest
      have hnext : Holds rest track start (last + n)
          { r with source, buf := r.buf ++ (track.drop last).take n } := by
        refine ⟨h.bufStart, ?_, by rw [hrest, drop_drop], by have := h.first_le; omega, by omega⟩
        rw [h.buf, take_add, drop_append_of_le_length]
        rw [length_take]
        have := h.first_le
        omega
      rw [hread]
      obtain ⟨x, more, htake⟩ : ∃ x more, (track.drop last).take n = x :: more := by
        refine exists_cons_of_length_pos ?_
        simp
        omega
      rw [htake] at hnext ⊢
      exact ih (stop - (last + n)) (by omega) (hnext.dropBefore (Nat.le_refl _) hnext.first_le)
        (by omega) rfl
    · obtain rfl : last = stop := by omega
      exact ⟨r, rfl, h⟩

/-- The next window of a reader that holds audio up to somewhere in it. -/
theorem nextWindow_holds (hsrc : src.HandsOut rest) (skip : ℕ → Bool) (index : ℕ)
    (h : Holds rest track first last r) (hfirst : first ≤ start) (hstart : start ≤ last)
    (hlast : last ≤ stop) (hstop : stop ≤ track.length) :
    ∃ p, nextWindow src skip index (start, stop) r = .ok p ∧
      p.1 = ⟨index, start, if skip index then [] else (track.take stop).drop start⟩ ∧
      Holds rest track p.1.start stop p.2 := by
  obtain ⟨r', hfill, h'⟩ := fill_holds hsrc (h.dropBefore hfirst hstart) hlast hstop
  simp only [nextWindow, hfill]
  refine ⟨_, rfl, ?_, h'⟩
  simp only [h'.bufStart, Nat.sub_self, drop_zero, ← h'.length, take_length, h'.buf]

theorem planFrom_covers {total window overlap : ℕ} (hoverlap : overlap < window) (start : ℕ) :
    let bs := planFrom total window overlap start
    (∀ n, start ≤ n → n < total → ∃ b ∈ bs, b.1 ≤ n ∧ n < b.2) ∧
      bs.head?.map (·.1) = some start ∧ bs.IsChain (fun b c => c.1 + overlap = b.2) ∧
      ∀ b ∈ bs.getLast?, b.2 = total := by
  fun_induction planFrom total window overlap start with
  | case1 start h ih =>
    obtain ⟨hcovers, hhead, hchain, hlast⟩ := ih
    revert hcovers hhead hchain hlast
    cases planFrom total window overlap (start + window - overlap) with
    | nil => nofun
    | cons c cs =>
      intro hcovers hhead hchain hlast
      have hstart : c.1 = start + window - overlap := Option.some.inj hhead
      refine ⟨fun n hn hlt => ?_, rfl, isChain_cons_cons.mpr ⟨?_, hchain⟩, hlast⟩
      · by_cases hfirst : n < start + window
        · exact ⟨_, mem_cons_self, hn, hfirst⟩
        · obtain ⟨b, hb, hin⟩ := hcovers n (by omega) hlt
          exact ⟨b, mem_cons_of_mem _ hb, hin⟩
      · show c.1 + overlap = start + window
        omega
  | case2 start h =>
    have hend : min (start + window) total = total := by omega
    rw [hend]
    exact ⟨fun n hn hlt => ⟨_, mem_singleton_self _, hn, hlt⟩, rfl, .singleton _, by simp⟩

/-- A reader that holds audio up to somewhere in the next window reads all of the plan. -/
theorem planFrom_read (hsrc : src.HandsOut rest) (skip : ℕ → Bool) (index : ℕ)
    {window overlap : ℕ} (hoverlap : overlap < window) (h : Holds rest track first last r)
    (hfirst : first ≤ start) (hstart : start ≤ last) (hlast : last ≤ start + window) :
    ∃ out, readWindows src skip index (planFrom track.length window overlap start) r = .ok out ∧
      out.map (·.1) = ((planFrom track.length window overlap start).zipIdx index).map
        (fun p => ⟨p.2, p.1.1, if skip p.2 then [] else (track.take p.1.2).drop p.1.1⟩) ∧
      ∀ p ∈ out, ∃ stop ≤ p.1.start + window, Holds rest track p.1.start stop p.2 := by
  fun_induction planFrom track.length window overlap start generalizing index first last r with
  | case1 start hin ih =>
    obtain ⟨p, hnext, hwindow, h'⟩ := nextWindow_holds hsrc skip index h hfirst hstart hlast
      (by omega : start + window ≤ track.length)
    have hstart : p.1.start = start := by rw [hwindow]
    obtain ⟨out, hout, hwindows, hheld⟩ := ih (index + 1) h' (by omega) (by omega) (by omega)
    refine ⟨p :: out, ?_, ?_, forall_mem_cons.mpr ⟨⟨_, by omega, h'⟩, hheld⟩⟩
    · rw [readWindows, hnext, ok_bind, hout]
      rfl
    · rw [map_cons, hwindow, hwindows]
      rfl
  | case2 start hin =>
    have hroom := h.last_le
    obtain ⟨p, hnext, hwindow, h'⟩ := nextWindow_holds hsrc skip index h hfirst hstart
      (by omega : last ≤ min (start + window) track.length) (Nat.min_le_right _ _)
    have hstart : p.1.start = start := by rw [hwindow]
    refine ⟨[p], ?_, congrArg ([·]) hwindow, forall_mem_singleton.mpr ⟨_, by omega, h'⟩⟩
    rw [readWindows, hnext]
    rfl

/-- The windows cover the track, overlap by `overlap` and end at its end; and a reader returns
    for each one that is not skipped the samples from its start to its end. It holds at most a
    window, also while the loop for one is under way: from a reader there (`x`) the loop ends in
    the reader after the window. -/
theorem windows_exact (hsrc : src.HandsOut rest) {s : σ}
    (htotal : src.total s = (rest s).length) {window overlap : ℕ} (hoverlap : overlap < window)
    (skip : ℕ → Bool) :
    let bs := plan (src.total s) window overlap
    (∀ n < (rest s).length, ∃ b ∈ bs, b.1 ≤ n ∧ n < b.2) ∧
      bs.IsChain (fun b c => c.1 + overlap = b.2) ∧
      (∀ b ∈ bs.getLast?, b.2 = (rest s).length) ∧
      ∃ out, readWindows src skip 0 bs (.new s) = .ok out ∧
        out.map (·.1) = bs.zipIdx.map (fun p =>
          ⟨p.2, p.1.1, if skip p.2 then [] else ((rest s).take p.1.2).drop p.1.1⟩) ∧
        ∀ p ∈ out, p.2.buf.length ≤ window ∧ ∀ x stop, x.bufStart = p.1.start →
          fill src p.1.start stop x = .ok p.2 → x.buf.length ≤ window := by
  rw [htotal]
  unfold plan
  split
  · next hempty =>
    exact ⟨by omega, .nil, nofun, [], rfl, rfl, nofun⟩
  · obtain ⟨hcovers, -, hchain, hlast⟩ := @planFrom_covers (rest s).length _ _ hoverlap 0
    obtain ⟨out, hout, hwindows, hheld⟩ := planFrom_read hsrc skip 0 hoverlap
      (⟨rfl, rfl, rfl, Nat.le_refl _, Nat.zero_le _⟩ : Holds rest (rest s) 0 0 (.new s))
      (Nat.le_refl _) (Nat.le_refl _) (Nat.zero_le _)
    refine ⟨fun n hn => hcovers n (Nat.zero_le n) hn, hchain, hlast, out, hout, hwindows,
      fun p hp => ?_⟩
    obtain ⟨stop, hle, h⟩ := hheld p hp
    have hlength : p.2.buf.length ≤ window := by
      rw [h.length]
      omega
    exact ⟨hlength, fun x stop hstart hfill => (fill_grows hfill hstart).trans hlength⟩

theorem windows_of_five_samples :
    ∃ out, readWindows memorySource (· == 1) 0 [(0, 3), (2, 5)] (.new ⟨[1, 2, 3, 4, 5], 5⟩) =
        .ok out ∧ out.map (·.1) = [⟨0, 0, [1, 2, 3]⟩, ⟨1, 2, []⟩] := by
  have hsrc : memorySource.HandsOut (·.pcm) := by
    intro t limit hlimit _
    exact ⟨limit, _, hlimit, le_rfl, rfl, rfl⟩
  obtain ⟨-, -, -, out, hout, hwindows, -⟩ := windows_exact hsrc
    (s := ⟨[1, 2, 3, 4, 5], 5⟩) rfl (by decide : 1 < 3) (· == 1)
  have hplan : plan (memorySource.total ⟨[1, 2, 3, 4, 5], 5⟩) 3 1 = [(0, 3), (2, 5)] := by
    simp [plan, planFrom, memorySource]
  rw [hplan] at hout hwindows
  exact ⟨out, hout, hwindows⟩

end Exact

/-! ## Cross-track bleed -/

/-- `BleedParams`; the four thresholds are kept as the bits of their `f32`. -/
structure BleedParams where
  contextMs : ℕ
  maxLagMs : ℕ
  minCorrelation : UInt32
  minGapDb : UInt32
  minReferenceDb : UInt32
  maxExcessDb : UInt32
  hangMs : ℕ
  system : Bool
  mic : Bool
  deriving DecidableEq

inductive Channel
  | mic
  | system
  deriving DecidableEq, Repr

def BleedParams.appliesTo (p : BleedParams) : Channel → Bool
  | .mic => p.mic
  | .system => p.system

/-- Samples of an analysis frame. -/
def frame : ℕ := 160

def blockFrames : ℕ := 1000

/-- Context, in frames, that one frame's decision reads on either side. -/
def BleedParams.margin (p : BleedParams) : ℕ :=
  p.contextMs / 10 + p.maxLagMs / 10 + 5 + p.hangMs / 10

/-- `ready` is filtered and not yet handed out; `emitted` is where the next block starts. -/
structure BleedFilter (σ τ : Type) where
  track : σ
  reference : τ
  params : BleedParams
  total : ℕ
  trackBuf : Pcm
  referenceBuf : Pcm
  referenceEnded : Bool
  bufStart : ℕ
  ready : Pcm
  emitted : ℕ

def BleedFilter.new (track : σ) (reference : τ) (params : BleedParams) : BleedFilter σ τ :=
  { track, reference, params, total := src.total track, trackBuf := [], referenceBuf := [],
    referenceEnded := false, bufStart := 0, ready := [], emitted := 0 }

/-- Samples of a track until `want` of them are there. -/
def readTrack (src : Source σ) (want : ℕ) (track : σ) (buf : Pcm) : Except String (σ × Pcm) :=
  if buf.length < want then
    match src.read track (min (want - buf.length) 65536) with
    | .error e => .error e
    | .ok ([], _) => .error endedEarly
    | .ok (x :: more, track) => readTrack src want track (buf ++ x :: more)
  else .ok (track, buf)
termination_by want - buf.length
decreasing_by
  simp only [List.length_append, List.length_cons]
  omega

/-- Samples of the reference until `want` of them are there; past its end there are zeros. -/
def readReference (src : Source τ) (want : ℕ) (reference : τ) (buf : Pcm) (ended : Bool) :
    Except String (τ × Pcm × Bool) :=
  if buf.length < want then
    if ended then .ok (reference, buf ++ List.replicate (want - buf.length) 0, true)
    else
      match src.read reference (min (want - buf.length) 65536) with
      | .error e => .error e
      | .ok ([], reference) =>
        .ok (reference, buf ++ List.replicate (want - buf.length) 0, true)
      | .ok (x :: more, reference) => readReference src want reference (buf ++ x :: more) ended
  else .ok (reference, buf, ended)
termination_by want - buf.length
decreasing_by
  simp only [List.length_append, List.length_cons]
  omega

section
variable (copied : List Bool) (first last : ℕ) (buf : Pcm)

/-- The block `from..to` of the buffer with the copied frames silenced. -/
def silenceCopies : Pcm :=
  ((buf.take last).drop first).mapIdx fun k x =>
    if (copied[(first + k) / frame]?).getD false then 0 else x

theorem length_silenceCopies : (silenceCopies copied first last buf).length ≤ last - first := by
  simp only [silenceCopies, length_mapIdx, length_drop, length_take]
  omega

end

/-- Filter the next block into `ready`. -/
def BleedFilter.nextBlock (copiedFrames : BleedParams → Pcm → Pcm → List Bool) (a : Source σ)
    (b : Source τ) (f : BleedFilter σ τ) : Except String (BleedFilter σ τ) := do
  let margin := f.params.margin * frame
  let blockEnd := min (f.emitted + blockFrames * frame) f.total
  let wantEnd := min (blockEnd + margin) f.total
  -- drop what no later block reads
  let keepFrom := max (f.emitted - margin) f.bufStart
  let drop := keepFrom - f.bufStart
  let (track, trackBuf) ← readTrack a (wantEnd - keepFrom) f.track (f.trackBuf.drop drop)
  let (reference, referenceBuf, ended) ←
    readReference b trackBuf.length f.reference (f.referenceBuf.drop drop) f.referenceEnded
  let copied := copiedFrames f.params trackBuf (referenceBuf.take trackBuf.length)
  .ok { f with
    track, reference, trackBuf, referenceBuf, referenceEnded := ended, bufStart := keepFrom,
    ready := silenceCopies copied (f.emitted - keepFrom) (blockEnd - keepFrom) trackBuf,
    emitted := blockEnd }

variable {copiedFrames : BleedParams → Pcm → Pcm → List Bool} {a : Source σ} {b : Source τ}
  {f f' : BleedFilter σ τ}

theorem BleedFilter.nextBlock_ok (h : f.nextBlock copiedFrames a b = .ok f') :
    f'.total = f.total ∧ f'.emitted = min (f.emitted + blockFrames * frame) f.total ∧
      f'.ready.length ≤ f'.emitted - f.emitted := by
  obtain ⟨⟨track, trackBuf⟩, -, h⟩ := bind_eq_ok.mp h
  obtain ⟨⟨reference, referenceBuf, ended⟩, -, h⟩ := bind_eq_ok.mp h
  cases h
  refine ⟨rfl, rfl, Nat.le_trans (length_silenceCopies _ _ _ _) ?_⟩
  show _ ≤ min (f.emitted + blockFrames * frame) f.total - f.emitted
  omega

/-- The next block, if everything filtered so far has been handed out. -/
def BleedFilter.prepare (copiedFrames : BleedParams → Pcm → Pcm → List Bool) (a : Source σ)
    (b : Source τ) (f : BleedFilter σ τ) : Except String (BleedFilter σ τ) :=
  if f.ready.isEmpty && f.emitted != f.total then f.nextBlock copiedFrames a b else .ok f

def BleedFilter.left (f : BleedFilter σ τ) : ℕ := f.ready.length + (f.total - f.emitted)

theorem BleedFilter.prepare_left (h : f.prepare copiedFrames a b = .ok f') : f'.left ≤ f.left := by
  unfold BleedFilter.prepare at h
  split at h
  · obtain ⟨htotal, hemitted, hready⟩ := BleedFilter.nextBlock_ok h
    unfold BleedFilter.left
    omega
  · cases h
    exact Nat.le_refl _

def bleedSource (copiedFrames : BleedParams → Pcm → Pcm → List Bool) (a : Source σ)
    (b : Source τ) : Source (BleedFilter σ τ) where
  total f := f.total
  read f limit := do
    let f ← f.prepare copiedFrames a b
    .ok (f.ready.take limit, { f with ready := f.ready.drop limit })
  left := BleedFilter.left
  read_left := by
    intro f limit pcm f' h
    obtain ⟨g, hg, h⟩ := bind_eq_ok.mp h
    cases h
    have hleft := BleedFilter.prepare_left hg
    simp only [BleedFilter.left, List.length_drop, List.length_take] at hleft ⊢
    omega

/-- A track as the job reads it. -/
inductive Track (σ : Type)
  | plain (track : σ)
  | filtered (f : BleedFilter σ σ)

def trackSource (copiedFrames : BleedParams → Pcm → Pcm → List Bool) (src : Source σ) :
    Source (Track σ) where
  total
    | .plain t => src.total t
    | .filtered f => f.total
  read
    | .plain t, limit => do
      let (pcm, t) ← src.read t limit
      .ok (pcm, .plain t)
    | .filtered f, limit => do
      let (pcm, f) ← (bleedSource copiedFrames src src).read f limit
      .ok (pcm, .filtered f)
  left
    | .plain t => src.left t
    | .filtered f => f.left
  read_left := by
    intro t limit pcm t' h
    cases t with
    | plain t =>
      obtain ⟨p, hread, h⟩ := bind_eq_ok.mp h
      cases h
      exact src.read_left hread
    | filtered f =>
      obtain ⟨p, hread, h⟩ := bind_eq_ok.mp h
      cases h
      exact (bleedSource copiedFrames src src).read_left hread

end FlyOnTheWall.PostPass
