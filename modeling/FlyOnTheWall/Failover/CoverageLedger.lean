/-
  What a coverage journal says: records in order, and the state they add up to.

  * `coverage`, `switchesOf`, `commitsOf`: the meaning of a list of accepted records.
  * `CommitShape`, `SwitchShape`: what the validation of a record establishes.
  * `Sound`: a journal's records tile the audio, its epochs are numbered and start where
    coverage stood, its segments are unique and belong to their commit.
  * `Sound.accept`, `Sound.pushEpoch`: a validated record keeps a journal sound.
-/
import FlyOnTheWall.Failover.Coverage
import FlyOnTheWall.Lib.Tiling

namespace FlyOnTheWall.Coverage

open Lib Replay List

/-! ## Lists of records -/

def Record.epoch? : Record → Option ProviderEpoch
  | .switched epoch => some epoch
  | .committed _ => none

def Record.commit? : Record → Option CommittedAudio
  | .switched _ => none
  | .committed commit => some commit

variable (records : List Record)

def switchesOf : List ProviderEpoch := records.filterMap Record.epoch?

def commitsOf : List CommittedAudio := records.filterMap Record.commit?

/-- The sample reached by the records, from the first sample of the source. -/
def coverage (first : ℕ) (records : List Record) : ℕ :=
  records.foldl (fun reached r => (r.commit?.map (·.throughSample)).getD reached) first

variable (rs : List Record) {epoch : ProviderEpoch}

@[simp] theorem switchesOf_concat_switched (e : ProviderEpoch) :
    switchesOf (rs ++ [.switched e]) = switchesOf rs ++ [e] := by
  simp [switchesOf, Record.epoch?]

@[simp] theorem switchesOf_concat_committed (c : CommittedAudio) :
    switchesOf (rs ++ [.committed c]) = switchesOf rs := by
  simp [switchesOf, Record.epoch?]

@[simp] theorem commitsOf_concat_switched (e : ProviderEpoch) :
    commitsOf (rs ++ [.switched e]) = commitsOf rs := by
  simp [commitsOf, Record.commit?]

@[simp] theorem commitsOf_concat_committed (c : CommittedAudio) :
    commitsOf (rs ++ [.committed c]) = commitsOf rs ++ [c] := by
  simp [commitsOf, Record.commit?]

@[simp] theorem coverage_concat_switched (first : ℕ) (rs : List Record) (e : ProviderEpoch) :
    coverage first (rs ++ [.switched e]) = coverage first rs := by
  simp [coverage, Record.commit?]

@[simp] theorem coverage_concat_committed (first : ℕ) (rs : List Record) (c : CommittedAudio) :
    coverage first (rs ++ [.committed c]) = c.throughSample := by
  simp [coverage, Record.commit?]

/-- A place in a list with one more element at its end is a place in the list or the end. -/
theorem concat_eq_append_cons {α : Type*} {xs before after : List α} {x y : α}
    (h : xs ++ [x] = before ++ y :: after) :
    (before = xs ∧ y = x) ∨ ∃ rest, xs = before ++ y :: rest := by
  rcases eq_nil_or_concat' after with rfl | ⟨rest, z, rfl⟩
  · have := append_inj' h rfl
    exact .inl ⟨this.1.symm, (cons.inj this.2).1.symm⟩
  · rw [← cons_append, ← append_assoc] at h
    exact .inr ⟨rest, (append_inj' h rfl).1⟩

/-! ## What validation establishes -/

structure SegmentShape (header : Header) (engine : EngineDescriptor) (commit : CommittedAudio)
    (segment : TranscriptSegment) : Prop where
  named : segment.id.isEmpty = false
  final : segment.isFinal = true
  session : segment.sessionId = header.sessionId
  source : segment.source = header.source
  provider : segment.provider = engine.provider
  model : segment.model = engine.model
  starts : commit.fromSample / 16 ≤ segment.startMs
  ordered : segment.startMs ≤ segment.endMs
  ends : segment.endMs ≤ commit.throughSample / 16
  confidence : segment.confidence.any (!·.isFinite) = false
  words : segment.words.any (Journal.refusesWord segment) = false

structure CommitShape (j : Journal) (commit : CommittedAudio) : Prop where
  epoch : commit.epoch = j.epoch.number
  starts : commit.fromSample = j.committed
  grows : commit.fromSample < commit.throughSample
  gap : ∀ reason ∈ commit.gap,
    reason.isEmpty = false ∧ reason.utf8ByteSize ≤ 512 ∧ commit.segments = []
  unique : (commit.segments.map (·.id)).Nodup
  fresh : ∀ s ∈ commit.segments, s.id ∉ j.ids
  segments : ∀ s ∈ commit.segments, SegmentShape j.header j.epoch.engine commit s

structure SwitchShape (j : Journal) (epoch : ProviderEpoch) : Prop where
  engine : validateEngine epoch.engine = .ok ()
  number : epoch.number = j.epoch.number + 1
  room : j.epoch.number + 1 ≤ u64Max
  starts : epoch.fromSample = j.committed
  reason : epoch.reason.isSome

namespace Journal

variable {commit : CommittedAudio} {j : Journal} {seen : List String}

theorem refusesSegment_eq_false {segment : TranscriptSegment} :
    j.refusesSegment commit seen segment = false ↔
      segment.id ∉ seen ∧ segment.id ∉ j.ids ∧
        SegmentShape j.header j.epoch.engine commit segment := by
  simp only [refusesSegment, Bool.or_eq_false_iff, Bool.not_eq_false', bne_eq_false_iff_eq,
    contains_eq_mem, decide_eq_false_iff_not, not_lt]
  constructor
  · rintro ⟨⟨⟨⟨⟨⟨⟨⟨⟨⟨⟨⟨h1, h2⟩, h3⟩, h4⟩, h5⟩, h6⟩, h7⟩, h8⟩, h9⟩, h10⟩, h11⟩, h12⟩, h13⟩
    exact ⟨h2, h3, h1, h4, h5, h6, h7, h8, h9, h10, h11, h12, h13⟩
  · rintro ⟨h2, h3, h1, h4, h5, h6, h7, h8, h9, h10, h11, h12, h13⟩
    exact ⟨⟨⟨⟨⟨⟨⟨⟨⟨⟨⟨⟨h1, h2⟩, h3⟩, h4⟩, h5⟩, h6⟩, h7⟩, h8⟩, h9⟩, h10⟩, h11⟩, h12⟩, h13⟩

variable {u : Unit}

/-- The loop accepts exactly distinct new identifiers on well-formed segments. -/
theorem checkSegments_eq_ok {segments : List TranscriptSegment} :
    j.checkSegments commit seen segments = .ok u ↔
      (segments.map (·.id)).Nodup ∧ (∀ s ∈ segments, s.id ∉ seen ∧ s.id ∉ j.ids) ∧
        ∀ s ∈ segments, SegmentShape j.header j.epoch.engine commit s := by
  induction segments generalizing seen with
  | nil => simp [checkSegments]
  | cons s segments ih =>
    simp only [checkSegments, bind_eq_ok, refuseIf_eq_ok, refusesSegment_eq_false, ih,
      map_cons, nodup_cons, forall_mem_cons]
    simp only [mem_cons, not_or]
    constructor
    · rintro ⟨-, ⟨hseen, hids, hshape⟩, hnodup, hfresh, hshapes⟩
      refine ⟨⟨?_, hnodup⟩, ⟨⟨hseen, hids⟩, fun t ht => ⟨(hfresh t ht).1.2, (hfresh t ht).2⟩⟩,
        hshape, hshapes⟩
      intro hmem
      obtain ⟨t, ht, hid⟩ := mem_map.mp hmem
      exact (hfresh t ht).1.1 hid
    · rintro ⟨⟨hnew, hnodup⟩, ⟨⟨hseen, hids⟩, hfresh⟩, hshape, hshapes⟩
      refine ⟨(), ⟨hseen, hids, hshape⟩, hnodup, fun t ht => ⟨⟨?_, (hfresh t ht).1⟩,
        (hfresh t ht).2⟩, hshapes⟩
      exact fun hid => hnew (mem_map.mpr ⟨t, ht, hid⟩)

theorem validateCommit_eq_ok {audio : Reader} : j.validateCommit audio commit = .ok u ↔
      CommitShape j commit ∧ ∃ pcm, audio.readFrom commit.throughSample 1 = .ok pcm := by
  simp only [validateCommit, bind_eq_ok, refuseIf_eq_ok, checkSegments_eq_ok,
    Bool.or_eq_false_iff, bne_eq_false_iff_eq, decide_eq_false_iff_not, not_le,
    not_mem_nil, not_false_eq_true, true_and]
  have hgap : (commit.gap.any fun reason => reason.isEmpty || reason.utf8ByteSize > 512 ||
      !commit.segments.isEmpty) = false ↔ ∀ reason ∈ commit.gap,
        reason.isEmpty = false ∧ reason.utf8ByteSize ≤ 512 ∧ commit.segments = [] := by
    cases commit.gap with
    | none => simp
    | some reason => simp [and_assoc]
  rw [hgap]
  constructor
  · rintro ⟨-, ⟨⟨⟨hepoch, hstarts⟩, hgrows⟩, hgaps⟩, pcm, hpcm, hunique, hfresh, hshapes⟩
    exact ⟨⟨hepoch, hstarts, hgrows, hgaps, hunique, hfresh, hshapes⟩, pcm, hpcm⟩
  · rintro ⟨⟨hepoch, hstarts, hgrows, hgaps, hunique, hfresh, hshapes⟩, pcm, hpcm⟩
    exact ⟨(), ⟨⟨⟨hepoch, hstarts⟩, hgrows⟩, hgaps⟩, pcm, hpcm, hunique, hfresh, hshapes⟩

theorem validateSwitch_eq_ok : j.validateSwitch epoch = .ok u ↔ SwitchShape j epoch := by
  simp only [validateSwitch, bind_eq_ok, refuseIf_eq_ok, Bool.or_eq_false_iff,
    bne_eq_false_iff_eq, checkedAdd_eq_some, Option.isNone_eq_false_iff]
  constructor
  · rintro ⟨_, hengine, ⟨⟨hroom, hnumber⟩, hstarts⟩, hreason⟩
    exact ⟨hengine, hnumber.symm, hroom, hstarts, hreason⟩
  · rintro ⟨hengine, hnumber, hroom, hstarts, hreason⟩
    exact ⟨(), hengine, ⟨⟨hroom, hnumber.symm⟩, hstarts⟩, hreason⟩

end Journal

/-! ## Sound journals -/

/-- The times of a segment are in milliseconds and its commit's interval is in samples, 16
    to the millisecond; `SegmentShape` compares them in milliseconds. -/
structure Sound (j : Journal) : Prop where
  commits : j.commits = commitsOf j.accepted
  epochs : j.epochs = initialEpoch j.header :: switchesOf j.accepted
  reached : j.committed = coverage j.header.firstSample j.accepted
  tiles : Tiles (·.fromSample) (·.throughSample) j.header.firstSample j.commits j.committed
  current : j.epochs.getLast? = some j.epoch
  numbered : ∀ (k : ℕ) (e : ProviderEpoch), j.epochs[k]? = some e → e.number = k
  switched : ∀ before e after, j.accepted = before ++ .switched e :: after →
    e.fromSample = coverage j.header.firstSample before ∧
      e.number = (switchesOf before).length + 1
  owned : ∀ before c after, j.accepted = before ++ .committed c :: after →
    c.epoch = (switchesOf before).length
  known : j.ids = j.commits.flatMap fun c => c.segments.map (·.id)
  unique : j.ids.Nodup
  segments : ∀ c ∈ j.commits, ∀ s ∈ c.segments,
    ∃ e, j.epochs[c.epoch]? = some e ∧ SegmentShape j.header e.engine c s

theorem Sound.fromHeader (header : Header) : Sound (Journal.fromHeader header) where
  commits := rfl
  epochs := rfl
  reached := rfl
  tiles := rfl
  current := rfl
  numbered := by
    intro k e h
    cases k with
    | zero =>
      obtain rfl : initialEpoch header = e := Option.some.inj h
      rfl
    | succ k => exact absurd h (by simp [Journal.fromHeader])
  switched := fun before e after h => absurd h (by simp [Journal.fromHeader])
  owned := fun before c after h => absurd h (by simp [Journal.fromHeader])
  known := rfl
  unique := nodup_nil
  segments := fun c hc => absurd hc (not_mem_nil)

namespace Sound

variable {j : Journal}

section
variable (h : Sound j)
include h

theorem epochs_length : j.epochs.length = (switchesOf j.accepted).length + 1 := by
  rw [h.epochs, length_cons]

/-- The current epoch is the last one, at its own number. -/
theorem number : j.epoch.number = (switchesOf j.accepted).length := by
  have hlast := h.current
  rw [List.getLast?_eq_getElem?, h.epochs_length, Nat.add_sub_cancel] at hlast
  exact h.numbered _ _ hlast

theorem current_get : j.epochs[j.epoch.number]? = some j.epoch := by
  have hlast := h.current
  rwa [List.getLast?_eq_getElem?, h.epochs_length, Nat.add_sub_cancel, ← h.number] at hlast

theorem accept {commit : CommittedAudio} (hc : CommitShape j commit) : Sound (j.accept commit) where
  commits := by
    show j.commits ++ [commit] = commitsOf (j.accepted ++ [.committed commit])
    rw [commitsOf_concat_committed, h.commits]
  epochs := by
    show j.epochs = initialEpoch j.header :: switchesOf (j.accepted ++ [.committed commit])
    rw [switchesOf_concat_committed, h.epochs]
  reached := by
    show commit.throughSample = coverage _ (j.accepted ++ [.committed commit])
    rw [coverage_concat_committed]
  tiles := h.tiles.concat hc.starts (hc.starts ▸ hc.grows)
  current := h.current
  numbered := h.numbered
  switched := by
    intro before e after heq
    rcases concat_eq_append_cons heq with ⟨-, hlast⟩ | ⟨rest, hrest⟩
    · cases hlast
    · exact h.switched before e rest hrest
  owned := by
    intro before c after heq
    rcases concat_eq_append_cons heq with ⟨rfl, hlast⟩ | ⟨rest, hrest⟩
    · cases hlast
      rw [hc.epoch, h.number]
    · exact h.owned before c rest hrest
  known := by
    show j.ids ++ _ = (j.commits ++ [commit]).flatMap _
    rw [flatMap_append, ← h.known, flatMap_singleton]
  unique := by
    have hdisjoint : ∀ a ∈ j.ids, ∀ b ∈ commit.segments.map (·.id), a ≠ b := by
      intro a ha b hb hab
      obtain ⟨s, hs, rfl⟩ := mem_map.mp hb
      exact hc.fresh s hs (hab ▸ ha)
    exact nodup_append.mpr ⟨h.unique, hc.unique, hdisjoint⟩
  segments := by
    intro c hmem s hs
    rcases mem_append.mp hmem with hold | hnew
    · exact h.segments c hold s hs
    · obtain rfl := mem_singleton.mp hnew
      exact ⟨j.epoch, hc.epoch ▸ h.current_get, hc.segments s hs⟩

theorem pushEpoch (he : SwitchShape j epoch) : Sound (j.pushEpoch epoch) where
  commits := by
    show j.commits = commitsOf (j.accepted ++ [.switched epoch])
    rw [commitsOf_concat_switched, h.commits]
  epochs := by
    show j.epochs ++ [epoch] = initialEpoch j.header :: switchesOf (j.accepted ++ [.switched epoch])
    rw [switchesOf_concat_switched, h.epochs, cons_append]
  reached := by
    show j.committed = coverage j.header.firstSample (j.accepted ++ [.switched epoch])
    rw [coverage_concat_switched, h.reached]
  tiles := h.tiles
  current := getLast?_concat
  numbered := by
    intro k e hk
    rcases lt_trichotomy k j.epochs.length with hlt | heq | hgt
    · rw [show (j.pushEpoch epoch).epochs = j.epochs ++ [epoch] from rfl,
        getElem?_append_left hlt] at hk
      exact h.numbered k e hk
    · subst heq
      obtain rfl : epoch = e := by simpa [Journal.pushEpoch] using hk
      rw [he.number, h.number, h.epochs_length]
    · have hlong : (j.pushEpoch epoch).epochs.length ≤ k := by
        simpa [Journal.pushEpoch] using Nat.succ_le_of_lt hgt
      rw [getElem?_eq_none hlong] at hk
      cases hk
  switched := by
    intro before e after heq
    rcases concat_eq_append_cons heq with ⟨rfl, hlast⟩ | ⟨rest, hrest⟩
    · cases hlast
      exact ⟨he.starts.trans h.reached, by rw [he.number, h.number]⟩
    · exact h.switched before e rest hrest
  owned := by
    intro before c after heq
    rcases concat_eq_append_cons heq with ⟨-, hlast⟩ | ⟨rest, hrest⟩
    · cases hlast
    · exact h.owned before c rest hrest
  known := h.known
  unique := h.unique
  segments := by
    intro c hc s hs
    obtain ⟨e, hget, hshape⟩ := h.segments c hc s hs
    refine ⟨e, ?_, hshape⟩
    exact (getElem?_append_left (List.getElem?_eq_some_iff.mp hget).1).trans hget

/-- The fields that no record reads may change. -/
theorem congr_state {j' : Journal} (failed : Bool) (validBytes : ℕ)
    (heq : j' = { j with failed, validBytes }) : Sound j' := by
  subst heq
  exact { h with }

/-- Every sample from the first to the committed one lies in exactly one commit. -/
theorem covered_once {n : ℕ} (hfirst : j.header.firstSample ≤ n) (hn : n < j.committed) :
    j.commits.countP (fun c => decide (c.fromSample ≤ n ∧ n < c.throughSample)) = 1 :=
  h.tiles.countP_eq_one hfirst hn

end

end Sound

end FlyOnTheWall.Coverage
