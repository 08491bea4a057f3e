/-
  What restoring does to a retained stream, for every candidate and every interference.

  * `compareFrom_ok`, `compareFrom_of_eq`: the comparison passes exactly if the retained samples
    are a prefix of the candidate's.
  * `Kept`: what an interrupted restore can have left; `restoreExisting_spec` shows it of every
    run, and `restoreExisting_undisturbed` computes the run that nothing disturbs.
  * `restore_safe`: the guarantees of both ways to restore.
-/
import FlyOnTheWall.Repair.Restore

namespace FlyOnTheWall.Replay

open Lib Reader List Option ReconstructionOwner DurableFile

/-! ## Bytes and samples -/

theorem samplesOf_append_isPrefix : ∀ xs ys, samplesOf xs <+: samplesOf (xs ++ ys)
  | [], _ => List.nil_prefix
  | [_], _ => List.nil_prefix
  | _ :: _ :: xs, ys => (prefix_cons_inj _).mpr (samplesOf_append_isPrefix xs ys)

theorem samplesOf_isPrefix {xs ys : List UInt8} (h : xs <+: ys) :
    samplesOf xs <+: samplesOf ys := by
  obtain ⟨rest, rfl⟩ := h
  exact samplesOf_append_isPrefix xs rest

theorem encodePcm_append (xs ys : List (BitVec 16)) :
    encodePcm (xs ++ ys) = encodePcm xs ++ encodePcm ys := flatMap_append

theorem encodePcm_isPrefix {xs ys : List (BitVec 16)} (h : xs <+: ys) :
    encodePcm xs <+: encodePcm ys := by
  obtain ⟨rest, rfl⟩ := h
  rw [encodePcm_append]
  exact prefix_append _ _

variable {last target : ℕ} {r original : Reader} {c : Copied}

theorem readFrom_chunk {cursor stop : ℕ} (hlast : r.availableEnd = .ok last)
    (hfirst : r.firstSample ≤ cursor) (hcursor : cursor < stop) (hstop : stop ≤ last) :
    r.readFrom cursor (chunk cursor stop) =
        .ok ((r.samples.drop (cursor - r.firstSample)).take (chunk cursor stop)) ∧
      ((r.samples.drop (cursor - r.firstSample)).take (chunk cursor stop)).length =
        chunk cursor stop := by
  have hle := chunk_le cursor stop
  exact (readFrom_full_iff hlast).mpr
    ⟨chunk_pos hcursor, hle.2, hfirst, by omega, rfl⟩

/-! ## The comparison -/

section Compare
variable {io : RestoreIo} {differs : IoError} {original candidate : Reader} {last target : ℕ}

theorem take_drop_eq_split {α : Type} {xs ys : List α} {i n stop : ℕ} (hn : i + n ≤ stop) :
    (xs.take stop).drop i = (ys.take stop).drop i ↔
      (xs.drop i).take n = (ys.drop i).take n ∧
        (xs.take stop).drop (i + n) = (ys.take stop).drop (i + n) := by
  have hsplit : ∀ zs : List α, (zs.take stop).drop i =
      (zs.drop i).take n ++ (zs.take stop).drop (i + n) := by
    intro zs
    rw [drop_take, drop_take, ← drop_drop, ← take_append_drop n
      ((zs.drop i).take (stop - i)), take_take, min_eq_left (by omega), drop_take,
      Nat.sub_sub]
  constructor
  · intro h
    refine ⟨?_, ?_⟩
    · have := congrArg (take n) h
      rwa [drop_take, drop_take, take_take, take_take, min_eq_left (by omega)] at this
    · have := congrArg (drop n) h
      rwa [drop_drop, drop_drop] at this
  · rintro ⟨hhead, htail⟩
    rw [hsplit xs, hsplit ys, hhead, htail]

/-- The samples from `cursor` on are the same in both. -/
def SameFrom (original candidate : Reader) (last cursor : ℕ) : Prop :=
  (original.samples.take (last - original.firstSample)).drop (cursor - original.firstSample) =
    (candidate.samples.take (last - original.firstSample)).drop (cursor - original.firstSample)

section
variable {cursor : ℕ} (hlast : original.availableEnd = .ok last)
  (htarget : candidate.availableEnd = .ok target) (hle : last ≤ target)
  (hfirst : candidate.firstSample = original.firstSample) (hcursor : original.firstSample ≤ cursor)
include hlast htarget hle hfirst hcursor

/-- An accepted comparison has compared every sample it was given. -/
theorem compareFrom_ok (h : compareFrom io differs original candidate last cursor = .ok ()) :
    SameFrom original candidate last cursor := by
  fun_induction compareFrom io differs original candidate last cursor with
  | case1 cursor hlt ih =>
    obtain ⟨_, h⟩ := bind_rest h
    rw [(readFrom_chunk hlast hcursor hlt (le_rfl)).1, ok_bind,
      (readFrom_chunk htarget (hfirst ▸ hcursor) hlt hle).1] at h
    obtain ⟨_, h⟩ := bind_rest h
    obtain ⟨hsame, h⟩ := refuseIf_bind_ok.mp (ok_bind _ _ ▸ h)
    rw [bne_eq_false_iff_eq, hfirst] at hsame
    have hchunk := chunk_le cursor last
    have hrest := ih (by omega) h
    rw [SameFrom, show cursor + chunk cursor last - original.firstSample =
      cursor - original.firstSample + chunk cursor last by omega] at hrest
    exact (take_drop_eq_split (by omega)).mpr ⟨hsame.symm, hrest⟩
  | case2 cursor hlt =>
    rw [SameFrom, drop_eq_nil_of_le (by rw [length_take]; omega),
      drop_eq_nil_of_le (by rw [length_take]; omega)]

/-- Where no stop is requested, equal samples are accepted. -/
theorem compareFrom_of_eq (hio : ∀ at', io.stop at' = false)
    (h : SameFrom original candidate last cursor) :
    compareFrom io differs original candidate last cursor = .ok () := by
  fun_induction compareFrom io differs original candidate last cursor with
  | case1 cursor hlt ih =>
    have hchunk := chunk_le cursor last
    have hroom : cursor - original.firstSample + chunk cursor last ≤
        last - original.firstSample := by omega
    obtain ⟨hsame, hrest⟩ := (take_drop_eq_split hroom).mp h
    rw [show cursor - original.firstSample + chunk cursor last =
      cursor + chunk cursor last - original.firstSample by omega] at hrest
    obtain ⟨hread, hlen⟩ := readFrom_chunk hlast hcursor hlt (le_rfl)
    have hread' := (readFrom_chunk htarget (hfirst ▸ hcursor) hlt hle).1
    rw [hfirst, ← hsame] at hread'
    refine refuseIf_bind_ok.mpr ⟨(hio _), ?_⟩
    refine bind_eq_ok.mpr ⟨_, hread, ?_⟩
    refine refuseIf_bind_ok.mpr ⟨(bne_eq_false_iff_eq.mpr hlen), ?_⟩
    refine bind_eq_ok.mpr ⟨_, hread', ?_⟩
    refine refuseIf_bind_ok.mpr ⟨(bne_eq_false_iff_eq.mpr rfl), ?_⟩
    exact ih (by omega) hrest
  | case2 cursor hlt => rfl

end

/-- The whole retained stream against the candidate. -/
theorem compare_all (hlast : original.availableEnd = .ok last) :
    SameFrom original candidate last original.firstSample ↔
      original.samples <+: candidate.samples := by
  have hlen := samples_length hlast
  rw [SameFrom, Nat.sub_self, drop_zero, drop_zero, take_of_length_le (by omega),
    prefix_iff_eq_take, show last - original.firstSample = original.samples.length by omega]

end Compare

/-! ## The copy -/

section Copy
variable (io : RestoreIo) (shortened : IoError) {candidate : Reader} {target : ℕ}
  {head : List UInt8}

/-- The bytes a restored stream ends with. -/
def restoredBytes (head : List UInt8) (candidate : Reader) : List UInt8 :=
  head ++ encodePcm candidate.samples

/-- The header and every sample before `cursor` have been written. -/
def CopiedTo (head : List UInt8) (candidate : Reader) (cursor : ℕ) (file : DurableFile) : Prop :=
  file.bytes = head ++ encodePcm (candidate.samples.take (cursor - candidate.firstSample))

variable {cursor : ℕ} {file : DurableFile}

theorem restored_isPrefix (n : ℕ) :
    head ++ encodePcm (candidate.samples.take n) <+: restoredBytes head candidate := by
  rw [restoredBytes, prefix_append_right_inj]
  exact encodePcm_isPrefix (List.take_prefix _ _)

theorem CopiedTo.isPrefix (h : CopiedTo head candidate cursor file) :
    file.bytes <+: restoredBytes head candidate := by
  rw [h]
  exact restored_isPrefix _

/-- The samples of the next read follow those that are there. -/
theorem CopiedTo.append {pcm : List (BitVec 16)} (h : CopiedTo head candidate cursor file)
    (htarget : candidate.availableEnd = .ok target) (hfirst : candidate.firstSample ≤ cursor)
    (hlt : cursor < target) (hread : candidate.readFrom cursor (chunk cursor target) = .ok pcm) :
    file.bytes ++ encodePcm pcm = head ++ encodePcm (candidate.samples.take
      (cursor + chunk cursor target - candidate.firstSample)) := by
  have hpcm := (readFrom_chunk htarget hfirst hlt (le_rfl)).1
  obtain rfl := Except.ok.inj (hread.symm.trans hpcm)
  rw [h, append_assoc, ← encodePcm_append, ← take_add,
    show cursor - candidate.firstSample + chunk cursor target =
      cursor + chunk cursor target - candidate.firstSample by omega]

theorem CopiedTo.done (h : CopiedTo head candidate target file)
    (htarget : candidate.availableEnd = .ok target) :
    file.bytes = restoredBytes head candidate := by
  have hlen := samples_length htarget
  rw [h, restoredBytes, take_of_length_le (by omega)]

/-- A copy that ends well has copied the whole candidate. -/
def Copied.Whole (c : Copied) (head : List UInt8) (candidate : Reader) (target : ℕ) : Prop :=
  c.result = .ok () →
    c.file.bytes = restoredBytes head candidate ∧ c.cursor = target ∧ c.failed = false

section
variable (htarget : candidate.availableEnd = .ok target) (hfirst : candidate.firstSample ≤ cursor)
  (hcursor : cursor ≤ target) (hfile : CopiedTo head candidate cursor file)
include htarget hfirst hcursor hfile

/-- Whatever interferes, the copy only appends, and only what the candidate has. -/
theorem copyFrom_spec (h : copyFrom io shortened candidate target cursor file = c) :
    file.bytes <+: c.file.bytes ∧ c.file.bytes <+: restoredBytes head candidate ∧
      c.file.synced = file.synced ∧ c.Whole head candidate target := by
  subst h
  fun_induction copyFrom io shortened candidate target cursor file with
  | case1 | case2 | case3 => exact ⟨prefix_rfl, hfile.isPrefix, rfl, nofun⟩
  | case4 cursor file hlt hstop pcm hread hlen hwritten ih =>
    have hbytes := (writeAll_complete hwritten).1
    obtain ⟨_, _, _, hsynced⟩ := file.writeAll_bytes (encodePcm pcm) (io.write cursor)
    have hchunk := chunk_le cursor target
    obtain ⟨happends, hwithin, hkept, hdone⟩ := ih (by omega) (by omega)
      (hbytes.trans (hfile.append htarget hfirst hlt hread))
    refine ⟨List.IsPrefix.trans ?_ happends, hwithin, hkept.trans hsynced, hdone⟩
    rw [hbytes]
    exact prefix_append _ _
  | case5 cursor file hlt hstop pcm hread hlen hwritten =>
    obtain ⟨part, hpart, hbytes, hsynced⟩ :=
      file.writeAll_bytes (encodePcm pcm) (io.write cursor)
    refine ⟨?_, ?_, hsynced, nofun⟩
    · rw [hbytes]
      exact prefix_append _ _
    · rw [hbytes]
      refine ((prefix_append_right_inj _).mpr hpart).trans ?_
      rw [hfile.append htarget hfirst hlt hread]
      exact restored_isPrefix _
  | case6 cursor file hlt =>
    obtain rfl : cursor = target := by omega
    exact ⟨prefix_rfl, hfile.isPrefix, rfl, fun _ => ⟨hfile.done htarget, rfl, rfl⟩⟩

/-- Undisturbed, the copy writes all of the candidate that a file can hold. -/
theorem copyFrom_undisturbed :
    (copyFrom .undisturbed shortened candidate target cursor file).file.bytes =
        (restoredBytes head candidate).take maxFileBytes ∧
      (copyFrom .undisturbed shortened candidate target cursor file).result =
        refuseIf (maxFileBytes < (restoredBytes head candidate).length) .other := by
  fun_induction copyFrom .undisturbed shortened candidate target cursor file with
  | case1 cursor file hlt hstop => cases hstop
  | case2 cursor file hlt hstop e hread =>
    have hpcm := (readFrom_chunk htarget hfirst hlt (le_rfl)).1
    cases hread.symm.trans hpcm
  | case3 cursor file hlt hstop pcm hread hlen =>
    obtain ⟨hpcm, hfull⟩ := readFrom_chunk htarget hfirst hlt (le_rfl)
    obtain rfl := Except.ok.inj (hread.symm.trans hpcm)
    rw [hfull] at hlen
    simp at hlen
  | case4 cursor file hlt hstop pcm hread hlen hwritten ih =>
    have hchunk := chunk_le cursor target
    exact ih (by omega) (by omega)
      ((writeAll_complete hwritten).1.trans (hfile.append htarget hfirst hlt hread))
  | case5 cursor file hlt hstop pcm hread hlen hwritten =>
    -- the write ran into the largest file length
    have hlong : maxFileBytes < (file.bytes ++ encodePcm pcm).length := by
      rw [length_append]
      have := of_decide_eq_false (Bool.eq_false_iff.mpr hwritten)
      omega
    have hpre : file.bytes ++ encodePcm pcm <+: restoredBytes head candidate := by
      rw [hfile.append htarget hfirst hlt hread]
      exact restored_isPrefix _
    refine ⟨?_, ?_⟩
    · show (file.write _).bytes = _
      rw [write_bytes_eq]
      obtain ⟨rest, hrest⟩ := hpre
      rw [← hrest]
      exact (take_append_of_le_length (le_of_lt hlong)).symm
    · have := hpre.length_le
      rw [decide_eq_true (by omega)]
      rfl
  | case6 cursor file hlt =>
    obtain rfl : cursor = target := by omega
    have hfits := file.fits
    rw [hfile.done htarget] at hfits
    rw [hfile.done htarget, take_of_length_le hfits, decide_eq_false (by omega)]
    exact ⟨rfl, rfl⟩

end

end Copy

/-! ## Retained audio that agrees with the candidate -/

/-- The bytes before the first sample. -/
def Reader.head (r : Reader) : List UInt8 := r.file.bytes.take r.audioOffset

/-- The retained audio up to its last complete sample. -/
def Reader.cut (r : Reader) : DurableFile :=
  r.file.truncate (r.audioOffset + r.samples.length * 2)

structure Agrees (original candidate : Reader) (last target : ℕ) : Prop where
  last_eq : original.availableEnd = .ok last
  target_eq : candidate.availableEnd = .ok target
  first : candidate.firstSample = original.firstSample
  samples : original.samples <+: candidate.samples

/-- What a restore may leave of the file: the header and the complete samples stay where they
    are, what of them was on stable storage stays there, and every sample is the candidate's. -/
structure Kept (original candidate : Reader) (file : DurableFile) : Prop where
  retained : original.cut.bytes <+: file.bytes
  synced : original.cut.synced ≤ file.synced
  samples : samplesOf (file.bytes.drop original.audioOffset) <+: candidate.samples

namespace Agrees
variable {original candidate : Reader} {last target : ℕ} {differs : IoError}

section
variable (h : Agrees original candidate last target)
include h

theorem inside : original.audioOffset ≤ original.file.bytes.length :=
  (availableEnd_eq_ok.mp h.last_eq).1

theorem head_length : original.head.length = original.audioOffset := by
  rw [Reader.head, length_take, min_eq_left h.inside]

theorem samples_eq : last - original.firstSample = original.samples.length := by
  have := samples_length h.last_eq
  omega

theorem last_le : last ≤ target := by
  have hlast := samples_length h.last_eq
  have htarget := samples_length h.target_eq
  have hle := h.samples.length_le
  have hfirst := h.first
  omega

theorem compare :
    compareFrom .undisturbed differs original candidate last original.firstSample = .ok () :=
  compareFrom_of_eq h.last_eq h.target_eq h.last_le h.first (le_rfl) (fun _ => rfl)
    ((compare_all h.last_eq).mpr h.samples)

theorem first_le : candidate.firstSample ≤ last := by
  have hlast := samples_length h.last_eq
  have hfirst := h.first
  omega

theorem cut_copiedTo : CopiedTo original.head candidate last original.cut := by
  have heven : ((original.file.bytes.drop original.audioOffset).take
      (original.samples.length * 2)).length % 2 = 0 := by
    rw [length_take, length_drop, Reader.samples, samplesOf_length, length_drop]
    omega
  have hpcm := encodePcm_samplesOf _ heven
  rw [samplesOf_take, ← Reader.samples, take_length] at hpcm
  rw [CopiedTo, h.first, h.samples_eq, ← prefix_iff_eq_take.mp h.samples, hpcm,
    Reader.head, ← take_add]
  rfl

/-- The cut is where the owner cuts. -/
theorem truncate_eq :
    original.file.truncate (original.audioOffset + (last - original.firstSample) * 2) =
      original.cut := by
  rw [h.samples_eq]
  rfl

variable {file : DurableFile}

/-- A file between the cut and the restored stream. -/
theorem kept_of_between (hcut : original.cut.bytes <+: file.bytes)
    (hwithin : file.bytes <+: restoredBytes original.head candidate)
    (hsynced : original.cut.synced ≤ file.synced) : Kept original candidate file := by
  refine ⟨hcut, hsynced, ?_⟩
  obtain ⟨rest, hrest⟩ := hwithin
  have hlong : original.audioOffset ≤ file.bytes.length := by
    have hlen := hcut.length_le
    have hinside := h.inside
    rw [Reader.cut, truncate_bytes, length_take] at hlen
    omega
  have hdrop : file.bytes.drop original.audioOffset <+: encodePcm candidate.samples := by
    refine ⟨rest, ?_⟩
    rw [← drop_append_of_le_length hlong, hrest, restoredBytes, drop_left' h.head_length]
  have hsamples := samplesOf_isPrefix hdrop
  rwa [samplesOf_encodePcm] at hsamples

theorem kept_self : Kept original candidate original.file :=
  ⟨List.take_prefix _ _, min_le_left _ _, h.samples⟩

theorem kept_cut : Kept original candidate original.cut :=
  h.kept_of_between prefix_rfl h.cut_copiedTo.isPrefix (le_rfl)

/-- The copy behind the cut. -/
theorem copy_spec (io : RestoreIo) (shortened : IoError)
    (hc : copyFrom io shortened candidate target last original.cut = c) :
    Kept original candidate c.file ∧ c.Whole original.head candidate target := by
  obtain ⟨happends, hwithin, hsynced, hdone⟩ := copyFrom_spec io shortened h.target_eq h.first_le
    h.last_le h.cut_copiedTo hc
  exact ⟨h.kept_of_between happends hwithin (le_of_eq hsynced.symm), hdone⟩

/-- A file with the same header and some of the candidate's samples agrees as well. -/
theorem of_file (hhead : original.head <+: file.bytes)
    (hsamples : samplesOf (file.bytes.drop original.audioOffset) <+: candidate.samples) :
    ∃ last', Agrees { original with file } candidate last' target ∧
      { original with file }.head = original.head := by
  have hinside : original.audioOffset ≤ file.bytes.length := h.head_length ▸ hhead.length_le
  have hle := hsamples.length_le
  rw [samplesOf_length, length_drop] at hle
  have htarget := samples_length h.target_eq
  have hmax := (availableEnd_eq_ok.mp h.target_eq).2.2
  have hfirst := h.first
  refine ⟨original.firstSample + (file.bytes.length - original.audioOffset) / 2,
    ⟨availableEnd_eq_ok.mpr ⟨hinside, rfl, by omega⟩, h.target_eq, h.first, hsamples⟩, ?_⟩
  have heq := prefix_iff_eq_take.mp hhead
  rw [h.head_length] at heq
  exact heq.symm

end

end Agrees

variable {candidate : Reader}

theorem restoreExisting_spec (io : RestoreIo) (h : Agrees original candidate last target) :
    Kept original candidate (restoreExisting io original candidate target).2 ∧
      ((restoreExisting io original candidate target).1 = .ok () →
        (restoreExisting io original candidate target).2.bytes =
          restoredBytes original.head candidate) := by
  obtain ⟨hcopied, hdone⟩ := h.copy_spec io (invalid "candidate shortened during restoration") rfl
  unfold restoreExisting
  rw [h.last_eq]
  dsimp only
  rw [h.truncate_eq]
  split
  · exact ⟨h.kept_self, nofun⟩
  split
  · exact ⟨h.kept_cut, nofun⟩
  split
  · exact ⟨hcopied, nofun⟩
  · next hresult =>
    split
    · refine ⟨⟨hcopied.retained, ?_, hcopied.samples⟩, fun _ => (hdone hresult).1⟩
      exact le_trans hcopied.synced (synced_le _)
    · exact ⟨hcopied, nofun⟩

theorem restoreExisting_undisturbed (h : Agrees original candidate last target) :
    (restoreExisting .undisturbed original candidate target).2.bytes =
        (restoredBytes original.head candidate).take maxFileBytes ∧
      (restoreExisting .undisturbed original candidate target).1 =
        refuseIf (maxFileBytes < (restoredBytes original.head candidate).length) .other := by
  obtain ⟨hbytes, hresult⟩ := copyFrom_undisturbed
    (invalid "candidate shortened during restoration") h.target_eq h.first_le h.last_le
    h.cut_copiedTo
  unfold restoreExisting
  rw [h.last_eq]
  dsimp only
  rw [h.truncate_eq, hresult]
  cases decide (maxFileBytes < (restoredBytes original.head candidate).length) with
  | true | false => exact ⟨hbytes, rfl⟩

/-! ## The guarantees -/

def Dir.marks (dir : Dir) : Dir := { dir with audio := none }

theorem marks_eq {d d' : Dir} (h : d'.marks = d.marks) :
    d'.sealedMark = d.sealedMark ∧ d'.completion = d.completion ∧ d'.projected = d.projected := by
  simp only [Dir.marks, Dir.mk.injEq, true_and] at h
  exact ⟨h.1, h.2.1, h.2.2.1⟩

structure SameBytes (d d' : Dir) : Prop where
  audio : d.audio.map (·.bytes) = d'.audio.map (·.bytes)
  marks : d.marks = d'.marks

/-- How an undisturbed restore ends: with its result, the bytes of the stream and the marks it
    found in `before`. -/
structure Ends (run : Except IoError ℕ × Dir) (result : Except IoError ℕ) (bytes : List UInt8)
    (before : Dir) : Prop where
  result : run.1 = result
  audio : run.2.audio.map (·.bytes) = some bytes
  marks : run.2.marks = before.marks

variable {before : Dir} {e : IoError}

theorem Ends.same {run run' : Except IoError ℕ × Dir} {result : Except IoError ℕ}
    {bytes : List UInt8} {before' : Dir} (h' : Ends run' result bytes before')
    (h : Ends run result bytes before) (hmarks : before'.marks = before.marks) :
    run'.1 = run.1 ∧ SameBytes run'.2 run.2 :=
  ⟨h'.result.trans h.result.symm, h'.audio.trans h.audio.symm,
    h'.marks.trans (hmarks.trans h.marks.symm)⟩

/-- The result of a restore that only the largest file length can stop. -/
def restoredResult (head : List UInt8) (candidate : Reader) (target : ℕ) : Except IoError ℕ := do
  refuseIf (maxFileBytes < (restoredBytes head candidate).length) .other
  return target

/-- The complete samples of a stream file. -/
def fileSamples (file : DurableFile) : List (BitVec 16) :=
  samplesOf (file.bytes.drop (12 + headerLength file.bytes))

/-- The header of a stream file and its complete samples. -/
def completeBytes (file : DurableFile) : List UInt8 :=
  file.bytes.take (12 + headerLength file.bytes + (fileSamples file).length * 2)

/-- What there is after an interruption: the directory as it was left, or what a loss of power
    makes of it. Unsynced bytes after the header can be missing, and so can the name of a
    stream that was not there before. -/
inductive Left (before after : Dir) : Dir → Prop
  | same : Left before after after
  | lost (file : DurableFile) (keep : ℕ) (haudio : after.audio = some file)
      (hheader : 12 + headerLength file.bytes ≤ (file.crash keep).bytes.length) :
      Left before after { after with audio := some (file.crash keep) }
  | unlinked (hmissing : before.audio = none) : Left before after before

/-- What holds of a restore from `before` that ended in `after`. `validated` is the outcome of
    its validation, `undisturbed` the same call with nothing interfering, and `again` an
    undisturbed restore from another directory. -/
structure Restored (candidate : Reader) (validated : Except IoError ℕ) (before : Dir)
    (after undisturbed : Except IoError ℕ × Dir) (again : Dir → Except IoError ℕ × Dir) :
    Prop where
  marks : after.2.marks = before.marks
  kept : ∀ file, before.audio = some file → ∃ file', after.2.audio = some file' ∧
    completeBytes file <+: file'.bytes ∧
      min file.synced (completeBytes file).length ≤ file'.synced
  rejected : ∀ e, validated = .error e → after = (.error e, before)
  within : ∀ n, validated = .ok n → ∀ file', after.2.audio = some file' →
    fileSamples file' <+: candidate.samples
  complete : ∀ n, after.1 = .ok n → validated = .ok n ∧ ∃ file', after.2.audio = some file' ∧
    fileSamples file' = candidate.samples
  finishes : ∀ n, validated = .ok n →
    (∀ file, before.audio = some file →
      12 + headerLength file.bytes + candidate.samples.length * 2 ≤ maxFileBytes) →
    undisturbed.1 = .ok n
  resumes : ∀ n, validated = .ok n → ∀ dir, Left before after.2 dir →
    (again dir).1 = undisturbed.1 ∧ SameBytes (again dir).2 undisturbed.2

variable {after undisturbed : Except IoError ℕ × Dir} {again : Dir → Except IoError ℕ × Dir}

/-- A candidate that is rejected changes nothing. -/
theorem Restored.of_rejected {validated : Except IoError ℕ}
    (hvalidated : validated = .error e) (hafter : after = (.error e, before)) :
    Restored candidate validated before after undisturbed again := by
  subst hvalidated hafter
  exact {
    marks := rfl
    kept := fun file hfile => ⟨file, hfile, List.take_prefix _ _, min_le_left _ _⟩
    rejected := fun _ he => by rw [Except.error.inj he]
    within := nofun
    complete := nofun
    finishes := nofun
    resumes := nofun }

/-- A reconstruction that has been opened. -/
structure Candidate (json : Json) where
  reader : Reader
  opened : fromFile json.header reader.file reader.header.sessionId reader.header.source =
    .ok reader

section Opened
variable {codec : Codec Header} {sessionId : String} {source : ReplaySource} {r : Reader}
  {candidate : Reader} {file : DurableFile}

section
variable (hopen : fromFile codec r.file sessionId source = .ok r)
include hopen

theorem offset_of_head (hhead : r.head <+: file.bytes) :
    12 + headerLength file.bytes = r.audioOffset :=
  (fromFile_opened (fromFile_of_header hopen hhead)).1.offset.symm

theorem offset_self : 12 + headerLength r.file.bytes = r.audioOffset :=
  offset_of_head hopen (List.take_prefix _ _)

theorem fileSamples_of_head (hhead : r.head <+: file.bytes) :
    fileSamples file = samplesOf (file.bytes.drop r.audioOffset) := by
  rw [fileSamples, offset_of_head hopen hhead]

theorem completeBytes_opened : completeBytes r.file = r.cut.bytes := by
  rw [completeBytes, fileSamples_of_head hopen (List.take_prefix _ _), offset_self hopen]
  rfl

end

theorem Kept.head (h : Kept r candidate file) : r.head <+: file.bytes := by
  refine List.IsPrefix.trans ?_ h.retained
  exact take_prefix_take_left (Nat.le_add_right _ _)

/-- The directory `before`, except that the stream is the header and some of the candidate. -/
structure Remains (r candidate : Reader) (before dir : Dir) (file : DurableFile) : Prop where
  marks : dir.marks = before.marks
  audio : dir.audio = some file
  head : r.head <+: file.bytes
  samples : samplesOf (file.bytes.drop r.audioOffset) <+: candidate.samples

/-- Bytes lost behind the header leave some of the samples. -/
theorem Kept.left (h : Kept r candidate file)
    (hopen : fromFile codec r.file sessionId source = .ok r) {dir : Dir}
    (hleft : Left before { before with audio := some file } dir) :
    (∃ file', Remains r candidate before dir file') ∨ before.audio = none ∧ dir = before := by
  cases hleft with
  | same => exact .inl ⟨file, rfl, rfl, h.head, h.samples⟩
  | lost file' keep hfile' hkeep =>
    obtain rfl := some.inj hfile'
    rw [offset_of_head hopen h.head] at hkeep
    obtain ⟨rest, hrest⟩ := file.crash_bytes keep
    refine .inl ⟨_, rfl, rfl, prefix_of_prefix_length_le h.head ⟨rest, hrest⟩ ?_, ?_⟩
    · rw [Reader.head, length_take]
      omega
    · refine (samplesOf_isPrefix ⟨rest, ?_⟩).trans h.samples
      rw [← hrest, drop_append_of_le_length hkeep]
  | unlinked hmissing => exact .inr ⟨hmissing, rfl⟩

end Opened

/-- A restore of a stream that is there and agrees with the candidate. -/
theorem Restored.of_kept {codec : Codec Header} {sessionId : String} {source : ReplaySource}
    {file : DurableFile} (haudio : before.audio = some r.file)
    (hopen : fromFile codec r.file sessionId source = .ok r)
    (hagrees : Agrees r candidate last target)
    (hafter : after.2 = { before with audio := some file }) (hkept : Kept r candidate file)
    (hdone : ∀ n, after.1 = .ok n → n = target ∧ file.bytes = restoredBytes r.head candidate)
    (hresult : undisturbed.1 = restoredResult r.head candidate target)
    (hagain : ∀ dir file', Remains r candidate before dir file' →
      (again dir).1 = undisturbed.1 ∧ SameBytes (again dir).2 undisturbed.2) :
    Restored candidate (.ok target) before after undisturbed again := by
  refine ⟨?_, ?_, nofun, ?_, ?_, ?_, ?_⟩
  · rw [hafter]
    rfl
  · intro file' hfile'
    obtain rfl := mem_unique haudio hfile'
    refine ⟨file, by rw [hafter], ?_, ?_⟩
    · rw [completeBytes_opened hopen]
      exact hkept.retained
    · rw [completeBytes_opened hopen]
      refine le_trans ?_ hkept.synced
      rw [Reader.cut, truncate_synced, truncate_bytes, length_take]
      omega
  · rintro n - file' hfile'
    rw [hafter] at hfile'
    obtain rfl := some.inj hfile'
    rw [fileSamples_of_head hopen hkept.head]
    exact hkept.samples
  · intro n hn
    obtain ⟨rfl, hbytes⟩ := hdone n hn
    refine ⟨rfl, file, by rw [hafter], ?_⟩
    rw [fileSamples_of_head hopen hkept.head, hbytes, restoredBytes,
      drop_left' hagrees.head_length, samplesOf_encodePcm]
  · rintro _ ⟨⟩ hroom
    have hroom := hroom r.file haudio
    rw [offset_self hopen] at hroom
    rw [hresult, restoredResult, restoredBytes, length_append, hagrees.head_length,
      encodePcm_length, decide_eq_false (by omega)]
    rfl
  · rintro _ - dir hleft
    rw [hafter] at hleft
    rcases hkept.left hopen hleft with ⟨file', hremains⟩ | ⟨hmissing, -⟩
    · exact hagain dir file' hremains
    · cases haudio.symm.trans hmissing

/-! ## The offline owner -/

section Offline
variable {json : RestoreJson} {io : RestoreIo} {files : SourceFiles} {dir : Dir} {session : String}
  {source : ReplaySource} {firstSample target : ℕ} {owner : ReconstructionOwner}
  {r candidate : Reader}

/-- `restoreSource`, seen on the directory it works in. -/
def restoreDir (json : RestoreJson) (io : RestoreIo) (prefixProjected : Option (List UInt8))
    (session : String) (source : ReplaySource) (firstSample : ℕ) (candidate : Reader)
    (dir : Dir) : Except IoError ℕ × Dir :=
  ((restoreSource json io ⟨dir, prefixProjected⟩ session source firstSample candidate).1,
    (restoreSource json io ⟨dir, prefixProjected⟩ session source firstSample candidate).2.dir)

/-- `Restored`, where `restoreSource` is what is made undisturbed and again. -/
abbrev RestoredSource (json : RestoreJson) (files : SourceFiles) (session : String)
    (source : ReplaySource) (firstSample : ℕ) (candidate : Reader) (validated : Except IoError ℕ)
    (after : Except IoError ℕ × Dir) : Prop :=
  let again := restoreDir json .undisturbed files.prefixProjected session source firstSample
    candidate
  Restored candidate validated files.dir after (again files.dir) again

/-- What a reservation has found. -/
structure Reserved (json : RestoreJson) (files : SourceFiles) (session : String)
    (source : ReplaySource) (firstSample : ℕ) (owner : ReconstructionOwner) : Prop where
  session_ok : (session.isEmpty || session.utf8ByteSize > 512) = false
  expected : owner.expected = ⟨session, source, streamRate, firstSample, none⟩
  audio : files.dir.audio = owner.original.map (·.file)
  opened : ∀ r, owner.original = some r → fromFile json.header r.file session source = .ok r
  header : ∀ r, owner.original = some r → r.header = owner.expected

theorem openOriginal_eq_ok {audio : Option DurableFile} {original : Option Reader}
    (h : openOriginal json io audio session source = .ok original) :
    audio = original.map (·.file) ∧
      ∀ r, original = some r → fromFile json.header r.file session source = .ok r := by
  cases audio with
  | none =>
    cases h
    exact ⟨rfl, nofun⟩
  | some file =>
    obtain ⟨_, h⟩ := bind_rest h
    obtain ⟨r, hr, h⟩ := bind_eq_ok.mp h
    cases h
    have hfile := (fromFile_opened hr).1.file_eq
    subst hfile
    refine ⟨rfl, ?_⟩
    rintro _ ⟨⟩
    exact hr

theorem reserve_eq_ok (h : reserve json io files session source firstSample = .ok owner) :
    Reserved json files session source firstSample owner := by
  simp only [reserve, bind_eq_ok, refuseIf_eq_ok] at h
  obtain ⟨_, hsession, _, -, original, horiginal, _, hheader, h⟩ := h
  cases h
  obtain ⟨haudio, hopened⟩ := openOriginal_eq_ok horiginal
  refine ⟨hsession, rfl, haudio, hopened, ?_⟩
  rintro r ⟨⟩
  rwa [any_some, bne_eq_false_iff_eq] at hheader

theorem reserve_undisturbed (h : Reserved json files session source firstSample owner) :
    reserve json .undisturbed files session source firstSample = .ok owner := by
  obtain ⟨expected, original⟩ := owner
  obtain ⟨hsession, hexpected, haudio, hopened, hheader⟩ := h
  obtain rfl : expected = _ := hexpected
  simp only [reserve, bind_eq_ok, refuseIf_eq_ok]
  refine ⟨(), hsession, (), rfl, original, ?_, (), ?_, rfl⟩
  · rw [haudio]
    cases original with
    | none => rfl
    | some r => exact bind_eq_ok.mpr ⟨(), rfl, bind_eq_ok.mpr ⟨r, hopened r rfl, rfl⟩⟩
  · cases original with
    | none => rfl
    | some r => rw [any_some, bne_eq_false_iff_eq, hheader r rfl]

/-- What validation has found. -/
structure Accepted (json : RestoreJson) (files : SourceFiles) (owner : ReconstructionOwner)
    (candidate : Reader) (target : ℕ) : Prop where
  header : candidate.header = owner.expected
  saved : Processing.savedEnd candidate = .ok target
  agrees : ∀ r, owner.original = some r → ∃ last, Agrees r candidate last target
  markers : validateReconstructionMarkers json true files candidate = .ok ()

theorem validateCandidate_eq_ok (hreserved : Reserved json files session source firstSample owner)
    (h : owner.validateCandidate json io files candidate = .ok target) :
    Accepted json files owner candidate target := by
  simp only [validateCandidate, bind_eq_ok, refuseIf_eq_ok, bne_eq_false_iff_eq] at h
  obtain ⟨_, -, _, -, _, hheader, _, hsaved, _, hcompare, _, hmarkers, h⟩ := h
  cases h
  have htarget := (Processing.savedEnd_eq_ok.mp hsaved).1
  refine ⟨hheader, hsaved, ?_, ?_⟩
  · intro r hr
    rw [hr] at hcompare
    obtain ⟨last, hlast, hcompare⟩ := bind_eq_ok.mp hcompare
    obtain ⟨_, hle, hcompare⟩ := bind_eq_ok.mp hcompare
    have hle : last ≤ target := by simpa using refuseIf_eq_ok.mp hle
    have hfirst : candidate.firstSample = r.firstSample := by
      rw [Reader.firstSample, Reader.firstSample, hheader, hreserved.header r hr]
    exact ⟨last, hlast, htarget, hfirst, (compare_all hlast).mp
      (compareFrom_ok hlast htarget hle hfirst (le_rfl) hcompare)⟩
  · cases hordinary : io.proofsOrdinary with
    | true => rwa [hordinary] at hmarkers
    | false =>
      rw [hordinary] at hmarkers
      obtain ⟨_, hmarkers⟩ := bind_rest hmarkers
      obtain ⟨_, hrefused, -⟩ := bind_eq_ok.mp hmarkers
      cases hrefused

theorem validateCandidate_undisturbed (h : Accepted json files owner candidate target) :
    owner.validateCandidate json .undisturbed files candidate = .ok target := by
  simp only [validateCandidate, bind_eq_ok, refuseIf_eq_ok, bne_eq_false_iff_eq]
  refine ⟨(), rfl, (), rfl, (), h.header, target, h.saved, (), ?_, (), h.markers, rfl⟩
  cases hr : owner.original with
  | none => rfl
  | some r =>
    obtain ⟨last, hagrees⟩ := h.agrees r hr
    refine bind_eq_ok.mpr ⟨last, hagrees.last_eq, ?_⟩
    exact refuseIf_bind_ok.mpr ⟨by simpa using hagrees.last_le, hagrees.compare⟩

theorem markers_congr (hmarks : dir.marks = files.dir.marks) :
    validateReconstructionMarkers json true { files with dir } candidate =
      validateReconstructionMarkers json true files candidate := by
  obtain ⟨hsealed, hcompletion, hprojected⟩ := marks_eq hmarks
  unfold validateReconstructionMarkers
  rw [hsealed, hcompletion, hprojected]

theorem restore_rejected (h : owner.validateCandidate json io files candidate = .error e) :
    owner.restore json io files candidate = (.error e, files) := by
  unfold restore
  rw [h]
  rfl

/-- After validation the restore is stopped once more before it changes anything. -/
theorem restore_validated (h : owner.validateCandidate json io files candidate = .ok target) :
    io.stop .validated = true ∧
        owner.restore json io files candidate = (.error interrupted, files) ∨
      io.stop .validated = false ∧ owner.restore json io files candidate =
        (match owner.original with
          | some original => (do
              (restoreExisting io original candidate target).1
              refuseIf (!io.dirSync) .other
              return target,
            { files with dir := { files.dir with
              audio := some (restoreExisting io original candidate target).2 } })
          | none => (do
              (restoreMissing io candidate).1
              refuseIf (!io.dirSync) .other
              return target,
            { files with dir := { files.dir with
              audio := (restoreMissing io candidate).2 } })) := by
  unfold restore
  rw [h]
  cases io.stop .validated with
  | true => exact .inl ⟨rfl, rfl⟩
  | false =>
    refine .inr ⟨rfl, ?_⟩
    cases owner.original <;> rfl

section
variable (hvalid : owner.validateCandidate json io files candidate = .ok target)
include hvalid

theorem restore_existing (haccepted : Accepted json files owner candidate target)
    (haudio : files.dir.audio = some r.file) (hr : owner.original = some r) :
    ∃ file, (owner.restore json io files candidate).2 =
        { files with dir := { files.dir with audio := some file } } ∧
      Kept r candidate file ∧
      ∀ n, (owner.restore json io files candidate).1 = .ok n →
        n = target ∧ file.bytes = restoredBytes r.head candidate := by
  obtain ⟨last, hagrees⟩ := haccepted.agrees r hr
  rcases restore_validated hvalid with ⟨-, hrun⟩ | ⟨-, hrun⟩
  · refine ⟨r.file, ?_, hagrees.kept_self, ?_⟩
    · rw [hrun, ← haudio]
    · rw [hrun]
      exact nofun
  · obtain ⟨hkept, hdone⟩ := restoreExisting_spec io hagrees
    rw [hr] at hrun
    refine ⟨_, congrArg Prod.snd hrun, hkept, fun n hn => ?_⟩
    rw [hrun] at hn
    obtain ⟨_, hexisting, hn⟩ := bind_eq_ok.mp hn
    obtain ⟨_, hn⟩ := bind_rest hn
    exact ⟨(Except.ok.inj hn).symm, hdone hexisting⟩

/-- A stream that is missing stays missing or becomes the candidate. -/
theorem restore_missing (haudio : files.dir.audio = none) (hr : owner.original = none) :
    ((owner.restore json io files candidate).2 = files ∨ (owner.restore json io files candidate).2 =
        { files with dir := { files.dir with audio := some candidate.file.sync } }) ∧
    ∀ n, (owner.restore json io files candidate).1 = .ok n → n = target ∧
      (owner.restore json io files candidate).2 =
        { files with dir := { files.dir with audio := some candidate.file.sync } } := by
  have hsame : files = { files with dir := { files.dir with audio := none } } := by
    rw [← haudio]
  rcases restore_validated hvalid with ⟨-, hrun⟩ | ⟨-, hrun⟩
  · rw [hrun]
    exact ⟨.inl rfl, nofun⟩
  · rw [hr] at hrun
    have hmissing : ((restoreMissing io candidate).2 = none ∧
        ∃ e, (restoreMissing io candidate).1 = .error e) ∨
        (restoreMissing io candidate).2 = some candidate.file.sync := by
      unfold restoreMissing
      split
      · exact .inl ⟨rfl, _, rfl⟩
      · exact .inr rfl
    rw [hrun]
    rcases hmissing with ⟨hnone, e, he⟩ | hlinked
    · rw [hnone, he, ← hsame]
      exact ⟨.inl rfl, nofun⟩
    · rw [hlinked]
      refine ⟨.inr rfl, fun n hn => ?_⟩
      obtain ⟨_, _, hn⟩ := bind_rest2 hn
      exact ⟨(Except.ok.inj hn).symm, rfl⟩

end

theorem restoredBytes_self (h : Processing.savedEnd candidate = .ok target) :
    restoredBytes candidate.head candidate = candidate.file.bytes := by
  have heven := (Processing.savedEnd_eq_ok.mp h).2
  rw [← length_drop] at heven
  rw [restoredBytes, Reader.samples, encodePcm_samplesOf _ heven]
  exact take_append_drop _ _

variable {file : DurableFile}

/-- The reservation of a stream that has been restored in part. -/
theorem Reserved.of_file (h : Reserved json files session source firstSample owner)
    (hopened : fromFile json.header r.file session source = .ok r)
    (hheader : r.header = owner.expected) (hremains : Remains r candidate files.dir dir file) :
    Reserved json { files with dir } session source firstSample
      { owner with original := some { r with file } } := by
  refine ⟨h.session_ok, h.expected, hremains.audio, ?_, ?_⟩
  · rintro _ ⟨⟩
    exact fromFile_of_header hopened hremains.head
  · rintro _ ⟨⟩
    exact hheader

theorem Accepted.of_file (h : Accepted json files owner candidate target)
    (hagrees : Agrees r candidate last target) (hmarks : dir.marks = files.dir.marks) :
    Accepted json { files with dir } { owner with original := some r } candidate target := by
  refine ⟨h.header, h.saved, ?_, (markers_congr hmarks).trans h.markers⟩
  rintro _ ⟨⟩
  exact ⟨last, hagrees⟩

section
variable (hreserved : Reserved json files session source firstSample owner)
  (haccepted : Accepted json files owner candidate target)
include hreserved haccepted

/-- The undisturbed restore of a stream that is missing. -/
theorem restoreSource_missing (hr : owner.original = none) :
    restoreSource json .undisturbed files session source firstSample candidate =
      (.ok target, { files with dir := { files.dir with audio := some candidate.file.sync } }) := by
  unfold restoreSource
  rw [reserve_undisturbed hreserved]
  dsimp only
  rcases restore_validated (validateCandidate_undisturbed haccepted) with ⟨hstop, -⟩ | ⟨-, hrun⟩
  · cases hstop
  · rw [hrun, hr]
    rfl

/-- The undisturbed restore of an existing stream. -/
theorem restoreSource_existing (hr : owner.original = some r) :
    Ends (restoreDir json .undisturbed files.prefixProjected session source firstSample candidate
        files.dir) (restoredResult r.head candidate target)
      ((restoredBytes r.head candidate).take maxFileBytes) files.dir := by
  have hvalid := validateCandidate_undisturbed haccepted
  obtain ⟨last, hagrees⟩ := haccepted.agrees r hr
  obtain ⟨hbytes, hresult⟩ := restoreExisting_undisturbed hagrees
  unfold restoreDir restoreSource
  rw [reserve_undisturbed hreserved]
  dsimp only
  rcases restore_validated hvalid with ⟨hstop, -⟩ | ⟨-, hrun⟩
  · cases hstop
  · rw [hr] at hrun
    rw [hrun]
    dsimp only
    rw [hresult]
    exact ⟨rfl, congrArg some hbytes, rfl⟩

/-- Whatever part of the candidate is there, restoring again ends in the same bytes. -/
theorem restoreSource_again (hr : owner.original = some r)
    (hremains : Remains r candidate files.dir dir file) :
    Ends (restoreDir json .undisturbed files.prefixProjected session source firstSample
      candidate dir)
      (restoredResult r.head candidate target)
      ((restoredBytes r.head candidate).take maxFileBytes) dir := by
  obtain ⟨last, hagrees⟩ := haccepted.agrees r hr
  obtain ⟨last', hagrees', heq⟩ := hagrees.of_file hremains.head hremains.samples
  rw [← heq]
  exact restoreSource_existing
    (hreserved.of_file (hreserved.opened r hr) (hreserved.header r hr) hremains)
    (haccepted.of_file hagrees' hremains.marks) rfl

/-- A candidate that was published, if only in part, is restored to itself. -/
theorem restoreSource_published
    (hopened : fromFile json.header candidate.file session source = .ok candidate)
    (hremains : Remains candidate candidate files.dir dir file) :
    Ends (restoreDir json .undisturbed files.prefixProjected session source firstSample
      candidate dir)
      (.ok target) candidate.file.bytes dir := by
  have htarget := (Processing.savedEnd_eq_ok.mp haccepted.saved).1
  have hself : Agrees candidate candidate target target :=
    ⟨htarget, htarget, rfl, prefix_rfl⟩
  obtain ⟨last, hagrees, heq⟩ := hself.of_file hremains.head hremains.samples
  have hends := restoreSource_existing (hreserved.of_file hopened haccepted.header hremains)
    (haccepted.of_file hagrees hremains.marks) rfl
  have hfits := candidate.file.fits
  rwa [heq, restoredResult, restoredBytes_self haccepted.saved, take_of_length_le hfits,
    decide_eq_false (by omega)] at hends

end

section
variable (hreserve : reserve json io files session source firstSample = .ok owner)
  (hvalid : owner.validateCandidate json io files candidate = .ok target)
include hreserve hvalid

theorem restored_existing (hr : owner.original = some r) :
    RestoredSource json files session source firstSample candidate (.ok target)
      ((owner.restore json io files candidate).1,
        (owner.restore json io files candidate).2.dir) := by
  have hreserved := reserve_eq_ok hreserve
  have haccepted := validateCandidate_eq_ok hreserved hvalid
  have haudio : files.dir.audio = some r.file := by rw [hreserved.audio, hr, map_some]
  obtain ⟨last, hagrees⟩ := haccepted.agrees r hr
  obtain ⟨file, hfile, hkept, hdone⟩ := restore_existing hvalid haccepted haudio hr
  exact Restored.of_kept haudio (hreserved.opened r hr) hagrees (congrArg SourceFiles.dir hfile)
    hkept hdone (restoreSource_existing hreserved haccepted hr).result fun dir file' hremains =>
      (restoreSource_again hreserved haccepted hr hremains).same
        (restoreSource_existing hreserved haccepted hr) hremains.marks

/-- A stream that is missing is published whole. -/
theorem restored_missing (hopened : fromFile json.header candidate.file candidate.header.sessionId
      candidate.header.source = .ok candidate) (hr : owner.original = none) :
    RestoredSource json files session source firstSample candidate (.ok target)
      ((owner.restore json io files candidate).1,
        (owner.restore json io files candidate).2.dir) := by
  have hreserved := reserve_eq_ok hreserve
  have haccepted := validateCandidate_eq_ok hreserved hvalid
  have haudio : files.dir.audio = none := by rw [hreserved.audio, hr, map_none]
  have hidentity : candidate.header.sessionId = session ∧ candidate.header.source = source := by
    rw [haccepted.header, hreserved.expected]
    exact ⟨rfl, rfl⟩
  rw [hidentity.1, hidentity.2] at hopened
  obtain ⟨hleaves, hdone⟩ := restore_missing hvalid haudio hr
  have hfresh : restoreDir json .undisturbed files.prefixProjected session source firstSample
      candidate files.dir = (.ok target, { files.dir with audio := some candidate.file.sync }) :=
    congrArg (fun run => (run.1, run.2.dir)) (restoreSource_missing hreserved haccepted hr)
  have hsamples : fileSamples candidate.file.sync = candidate.samples := by
    show fileSamples candidate.file = _
    rw [fileSamples_of_head hopened (List.take_prefix _ _)]
    rfl
  have hends : Ends (.ok target, { files.dir with audio := some candidate.file.sync }) (.ok target)
      candidate.file.bytes files.dir := ⟨rfl, rfl, rfl⟩
  simp only [RestoredSource, hfresh]
  refine ⟨?_, ?_, nofun, ?_, ?_, ?_, ?_⟩
  · rcases hleaves with hleaves | hleaves <;> rw [hleaves]
    rfl
  · intro file hfile
    cases haudio.symm.trans hfile
  · rintro n - file' hfile'
    rcases hleaves with hleaves | hleaves
    · rw [hleaves] at hfile'
      cases haudio.symm.trans hfile'
    · rw [hleaves] at hfile'
      obtain rfl := some.inj hfile'
      exact hsamples ▸ prefix_rfl
  · intro n hn
    obtain ⟨rfl, hlinked⟩ := hdone n hn
    exact ⟨rfl, candidate.file.sync, by rw [hlinked], hsamples⟩
  · rintro _ ⟨⟩ -
    rfl
  · rintro _ - dir hleft
    have hkept : Kept candidate candidate candidate.file.sync :=
      ⟨List.take_prefix _ _, candidate.cut.synced_le.trans (length_take_le' _ _), prefix_rfl⟩
    rcases hleaves with hleaves | hleaves <;> rw [hleaves] at hleft
    · cases hleft with
      | same | unlinked _ => exact hfresh ▸ ⟨rfl, rfl, rfl⟩
      | lost file keep hfile _ => cases haudio.symm.trans hfile
    · rcases hkept.left hopened hleft with ⟨file, hremains⟩ | ⟨-, rfl⟩
      · exact (restoreSource_published hreserved haccepted hopened hremains).same hends
          hremains.marks
      · exact hfresh ▸ ⟨rfl, rfl, rfl⟩

end

theorem restoreSource_restored (candidate : Candidate json.toJson) :
    RestoredSource json files session source firstSample candidate.reader
      (validateSource json io files session source firstSample candidate.reader)
      (restoreDir json io files.prefixProjected session source firstSample candidate.reader
        files.dir) := by
  have hrun : restoreSource json io ⟨files.dir, files.prefixProjected⟩ session source firstSample
      candidate.reader = restoreSource json io files session source firstSample candidate.reader :=
    rfl
  rw [restoreDir, hrun, restoreSource, validateSource]
  cases hreserve : reserve json io files session source firstSample with
  | error e => exact .of_rejected rfl rfl
  | ok owner =>
    rw [ok_bind]
    cases hvalid : owner.validateCandidate json io files candidate.reader with
    | error e =>
      refine .of_rejected rfl ?_
      dsimp only
      rw [restore_rejected hvalid]
    | ok target =>
      cases hr : owner.original with
      | none => exact restored_missing hreserve hvalid candidate.opened hr
      | some r => exact restored_existing hreserve hvalid hr

/-- The marker of a projected prefix is only read. -/
theorem restoreSource_prefixProjected (candidate : Reader) :
    (restoreSource json io files session source firstSample candidate).2.prefixProjected =
      files.prefixProjected := by
  rw [restoreSource]
  cases reserve json io files session source firstSample with
  | error e => rfl
  | ok owner =>
    show (owner.restore json io files candidate).2.prefixProjected = _
    unfold restore
    split <;> rfl

end Offline

/-! ## The append owner -/

section Appending
variable {json : Json} {io : RestoreIo} {s : Stream} {w : Writer} {source : ReplaySource}
  {r candidate : Reader} {target : ℕ}

/-- What the append owner's validation has found. -/
structure SuffixAccepted (json : Json) (dir : Dir) (w : Writer) (source : ReplaySource)
    (r candidate : Reader) (target : ℕ) : Prop where
  healthy : w.failed = false
  audio : dir.audio = some r.file
  opened : fromFile json.header r.file w.sessionId source = .ok r
  header : r.header = candidate.header
  unsealed : dir.sealedMark = none
  agrees : Agrees r candidate w.endSample target

variable {dir : Dir} {sessionId : String}

abbrev onDir (run : Except IoError ℕ × Stream) : Except IoError ℕ × Dir := (run.1, run.2.dir)

theorem openReader_of_file (haudio : dir.audio = some r.file)
    (hopen : fromFile json.header r.file sessionId source = .ok r) :
    openReader json dir sessionId source = .ok r :=
  bind_eq_ok.mpr ⟨r.file, okOr_eq_ok.mpr haudio, hopen⟩

theorem fromFile_of_openReader (h : openReader json dir sessionId source = .ok r) :
    dir.audio = some r.file ∧ fromFile json.header r.file sessionId source = .ok r := by
  have haudio := (openReader_eq_ok h).1
  obtain ⟨file, hfile, h⟩ := bind_eq_ok.mp h
  obtain rfl := some.inj (haudio.symm.trans (okOr_eq_ok.mp hfile))
  exact ⟨haudio, h⟩

theorem sealedEnd_of_unsealed (h : dir.sealedMark = none) : r.sealedEnd json dir = .ok none := by
  unfold Reader.sealedEnd
  rw [h]
  rfl

open Stream

theorem validateReconstructedSuffix_eq_ok
    (h : s.validateReconstructedSuffix json io w source candidate = .ok target) :
    ∃ r, SuffixAccepted json s.dir w source r candidate target := by
  simp only [validateReconstructedSuffix, bind_eq_ok, refuseIf_eq_ok, bne_eq_false_iff_eq,
    decide_eq_false_iff_not, not_lt] at h
  obtain ⟨_, hhealthy, r, hopen, _, hheader, _, hsealed, _, hunsealed, _, hlast, _, rfl, _, htarget,
    _, hle, _, hcompare, h⟩ := h
  obtain rfl := Except.ok.inj (htarget.symm.trans h)
  have hfirst : candidate.firstSample = r.firstSample := by
    rw [Reader.firstSample, Reader.firstSample, hheader]
  obtain ⟨haudio, hopened⟩ := fromFile_of_openReader hopen
  refine ⟨r, hhealthy, haudio, hopened, hheader, ?_, hlast, htarget, hfirst,
    (compare_all hlast).mp (compareFrom_ok hlast htarget hle hfirst (le_rfl) hcompare)⟩
  cases hmark : s.dir.sealedMark with
  | none => rfl
  | some bytes =>
    have hsome := sealedEnd_isSome (by rw [hmark]; rfl) hsealed
    rw [hunsealed] at hsome
    cases hsome

theorem restoreReconstructedSuffix_rejected
    (h : s.validateReconstructedSuffix json io w source candidate = .error e) :
    s.restoreReconstructedSuffix json io w source candidate = (.error e, s) := by
  unfold restoreReconstructedSuffix
  rw [h]
  rfl

/-- The next owner starts from the complete samples that are there. -/
theorem takeOverAndRestore_eq (haudio : dir.audio = some r.file)
    (hopen : fromFile json.header r.file sessionId source = .ok r)
    (hunsealed : dir.sealedMark = none) (hlast : r.availableEnd = .ok last) :
    takeOverAndRestore json dir sessionId source candidate =
      (mk { dir with audio := some r.file.sync }
        (some ⟨sessionId, last, false, false, true⟩)).restoreReconstructedSuffix json .undisturbed
          ⟨sessionId, last, false, false, true⟩ source candidate := by
  unfold takeOverAndRestore resumePrefixValidated
  rw [openReader_of_file haudio hopen, ok_bind, ok_bind, sealedEnd_of_unsealed hunsealed, ok_bind,
    hlast]
  rfl

section
variable (h : SuffixAccepted json s.dir w source r candidate target)
include h

theorem validateReconstructedSuffix_undisturbed :
    s.validateReconstructedSuffix json .undisturbed w source candidate = .ok target := by
  have hagrees := h.agrees
  simp only [validateReconstructedSuffix, bind_eq_ok, refuseIf_eq_ok, bne_eq_false_iff_eq,
    decide_eq_false_iff_not, not_lt]
  exact ⟨(), h.healthy, r, openReader_of_file h.audio h.opened, (), h.header, none,
    sealedEnd_of_unsealed h.unsealed, (), rfl, w.endSample, hagrees.last_eq, (), rfl, target,
    hagrees.target_eq, (), hagrees.last_le, (), hagrees.compare, hagrees.target_eq⟩

theorem restoreReconstructedSuffix_spec
    (hvalid : s.validateReconstructedSuffix json io w source candidate = .ok target) :
    ∃ file, (s.restoreReconstructedSuffix json io w source candidate).2.dir =
        { s.dir with audio := some file } ∧
      Kept r candidate file ∧
      ∀ n, (s.restoreReconstructedSuffix json io w source candidate).1 = .ok n →
        n = target ∧ file.bytes = restoredBytes r.head candidate := by
  have hagrees := h.agrees
  obtain ⟨hcopied, hdone⟩ := hagrees.copy_spec io (invalid "reconstructed input shortened") rfl
  have hopen := openReader_of_file h.audio h.opened
  unfold restoreReconstructedSuffix
  rw [hvalid, ok_bind, hopen]
  split
  · refine ⟨r.file, ?_, hagrees.kept_self, nofun⟩
    rw [← h.audio]
  · next target' r' hready =>
    obtain ⟨_, hready⟩ := bind_rest hready
    obtain ⟨_, -, hready⟩ := bind_eq_ok.mp (ok_bind _ _ ▸ hready)
    cases hready
    dsimp only
    rw [hagrees.truncate_eq]
    split
    · exact ⟨_, rfl, hagrees.kept_cut, nofun⟩
    split
    · exact ⟨_, rfl, hcopied, nofun⟩
    rename_i hresult
    obtain ⟨hbytes, hcursor, -⟩ := hdone hresult
    unfold syncAs
    split
    · exact ⟨_, rfl, hcopied, nofun⟩
    split
    · refine ⟨_, rfl, ⟨hcopied.retained, ?_, hcopied.samples⟩, fun n hn => ?_⟩
      · exact le_trans hcopied.synced (synced_le _)
      · exact ⟨(Except.ok.inj hn).symm.trans hcursor, hbytes⟩
    · exact ⟨_, rfl, hcopied, nofun⟩

theorem restoreReconstructedSuffix_undisturbed :
    Ends (onDir (s.restoreReconstructedSuffix json .undisturbed w source candidate))
      (restoredResult r.head candidate target)
      ((restoredBytes r.head candidate).take maxFileBytes) s.dir := by
  have hvalid := validateReconstructedSuffix_undisturbed h
  have hagrees := h.agrees
  obtain ⟨hbytes, hresult⟩ := copyFrom_undisturbed (invalid "reconstructed input shortened")
    hagrees.target_eq hagrees.first_le hagrees.last_le hagrees.cut_copiedTo
  have hdone := (hagrees.copy_spec .undisturbed (invalid "reconstructed input shortened") rfl).2
  have hopen := openReader_of_file h.audio h.opened
  unfold restoreReconstructedSuffix restoredResult
  rw [hvalid, ok_bind, hopen]
  split
  · next hready =>
    cases hready
  · next hready =>
    cases hready
    dsimp only
    rw [hagrees.truncate_eq, if_neg (by decide), hresult]
    cases hlong : decide (maxFileBytes < (restoredBytes r.head candidate).length) with
    | true => exact ⟨rfl, congrArg some hbytes, rfl⟩
    | false =>
      rw [hlong] at hresult
      obtain ⟨-, hcursor, hhealthy⟩ := hdone hresult
      rw [hhealthy, hcursor]
      exact ⟨rfl, congrArg some hbytes, rfl⟩

/-- Whatever part of the candidate is there, the next owner ends in the same bytes. -/
theorem takeOverAndRestore_again {file : DurableFile}
    (hremains : Remains r candidate s.dir dir file) :
    Ends (onDir (takeOverAndRestore json dir w.sessionId source candidate))
      (restoredResult r.head candidate target)
      ((restoredBytes r.head candidate).take maxFileBytes) dir := by
  have hunsealed : dir.sealedMark = none := (marks_eq hremains.marks).1.trans h.unsealed
  obtain ⟨last, hagrees, heq⟩ := h.agrees.of_file hremains.head hremains.samples
  have hopen := fromFile_of_header h.opened hremains.head
  have hopen' : fromFile json.header file.sync w.sessionId source =
      .ok { r with file := file.sync } := fromFile_of_header h.opened hremains.head
  have haccepted' : SuffixAccepted json { dir with audio := some file.sync }
      ⟨w.sessionId, last, false, false, true⟩ source { r with file := file.sync } candidate
      target :=
    ⟨rfl, rfl, hopen', h.header, hunsealed, { hagrees with }⟩
  have hhead' : { r with file := file.sync }.head = r.head := heq
  rw [takeOverAndRestore_eq hremains.audio hopen hunsealed hagrees.last_eq, ← hhead']
  obtain ⟨hresult, hbytes, hkept⟩ := restoreReconstructedSuffix_undisturbed
    (s := ⟨_, some ⟨w.sessionId, last, false, false, true⟩⟩) haccepted'
  exact ⟨hresult, hbytes, hkept⟩

end

theorem restoreReconstructedSuffix_restored (s : Stream) (w : Writer) (source : ReplaySource)
    (candidate : Reader) :
    Restored candidate (s.validateReconstructedSuffix json io w source candidate) s.dir
      (onDir (s.restoreReconstructedSuffix json io w source candidate))
      (onDir (s.restoreReconstructedSuffix json .undisturbed w source candidate))
      (fun dir => onDir (takeOverAndRestore json dir w.sessionId source candidate)) := by
  cases hvalid : s.validateReconstructedSuffix json io w source candidate with
  | error e =>
    refine .of_rejected rfl ?_
    rw [restoreReconstructedSuffix_rejected hvalid]
  | ok target =>
    obtain ⟨r, haccepted⟩ := validateReconstructedSuffix_eq_ok hvalid
    obtain ⟨file, hdir, hkept, hdone⟩ := restoreReconstructedSuffix_spec haccepted hvalid
    exact Restored.of_kept haccepted.audio haccepted.opened haccepted.agrees hdir hkept hdone
      (restoreReconstructedSuffix_undisturbed haccepted).result
      fun dir file' hremains =>
        (takeOverAndRestore_again haccepted hremains).same
          (restoreReconstructedSuffix_undisturbed haccepted) hremains.marks

end Appending

/-- Restoring a stream, by the offline owner and by an append owner. A complete sample that was
    retained stays, a rejected candidate changes nothing, an interruption leaves a prefix of
    the candidate, and restoring again ends as an undisturbed restore does. -/
theorem restore_safe (json : RestoreJson) (io : RestoreIo) :
    (∀ files session source firstSample (candidate : Candidate json.toJson),
      Restored candidate.reader
        (validateSource json io files session source firstSample candidate.reader) files.dir
        (restoreDir json io files.prefixProjected session source firstSample candidate.reader
          files.dir)
        (restoreDir json .undisturbed files.prefixProjected session source firstSample
          candidate.reader files.dir)
        (restoreDir json .undisturbed files.prefixProjected session source firstSample
          candidate.reader) ∧
      (restoreSource json io files session source firstSample
        candidate.reader).2.prefixProjected = files.prefixProjected) ∧
    ∀ (s : Stream) (w : Writer) source (candidate : Reader),
      Restored candidate (s.validateReconstructedSuffix json.toJson io w source candidate) s.dir
        ((s.restoreReconstructedSuffix json.toJson io w source candidate).1,
          (s.restoreReconstructedSuffix json.toJson io w source candidate).2.dir)
        ((s.restoreReconstructedSuffix json.toJson .undisturbed w source candidate).1,
          (s.restoreReconstructedSuffix json.toJson .undisturbed w source candidate).2.dir)
        (fun dir => ((Stream.takeOverAndRestore json.toJson dir w.sessionId source candidate).1,
          (Stream.takeOverAndRestore json.toJson dir w.sessionId source candidate).2.dir)) :=
  ⟨fun _ _ _ _ candidate =>
    ⟨restoreSource_restored candidate, restoreSource_prefixProjected candidate.reader⟩,
    fun s w source candidate =>
      restoreReconstructedSuffix_restored s w source candidate⟩

/-! ## A source of which one sample is left -/

def heldHeader : Header := ⟨"s", .system, 16000, 0, none⟩

def heldFile (pcm : List UInt8) : DurableFile :=
  (DurableFile.empty.write (magic ++ le32 (sampleJson.header.toVec heldHeader).length ++
    sampleJson.header.toVec heldHeader ++ pcm)).sync

def restoreJson : RestoreJson :=
  { sampleJson with prefixProjection := ⟨fun _ => [], fun _ => none⟩ }

def pairCandidate : Candidate restoreJson.toJson where
  reader := ⟨heldHeader, 12 + (sampleJson.header.toVec heldHeader).length, heldFile [5, 0, 6, 0]⟩
  opened := rfl

/-- Half of the second sample is there. -/
def tornSource : SourceFiles := ⟨⟨some (heldFile [5, 0, 6]), none, none, none, none⟩, none⟩

def stoppedCopy : RestoreIo := { RestoreIo.undisturbed with stop := fun c => c matches .copy _ }

/-- The restore is stopped before it copies the second sample, and then run again. -/
theorem restore_safe_stopped :
    let stopped := restoreDir restoreJson stoppedCopy none "s" .system 0 pairCandidate.reader
      tornSource.dir
    stopped.1 = .error interrupted ∧
      (restoreDir restoreJson .undisturbed none "s" .system 0 pairCandidate.reader
        stopped.2).1 = .ok 2 := by
  obtain ⟨hrestored, -⟩ :=
    (restore_safe restoreJson stoppedCopy).1 tornSource "s" .system 0 pairCandidate
  have hvalid : validateSource restoreJson stoppedCopy tornSource "s" .system 0
      pairCandidate.reader = .ok 2 := by
    decide +kernel
  have hagain := (hrestored.resumes 2 hvalid _ .same).1
  refine ⟨by decide +kernel, hagain.trans (hrestored.finishes 2 hvalid fun file hfile => ?_)⟩
  cases hfile
  decide +kernel

end FlyOnTheWall.Replay
