/-
  The local worker and the journal's validation.

  A local source hands the journal the chunks its endpointer cuts, the audio the endpointer has
  let go of, and the gaps the speech helper left. Positions are kept in three places, the
  journal's committed sample, the worker's cursor and the endpointer, and the validation
  compares them in milliseconds. `Working` ties them together; under it everything handed over
  passes the validation, if the text of every gap does.
-/
import FlyOnTheWall.Failover.Publication
import Mathlib.Data.String.Basic

namespace FlyOnTheWall.Stream

open Lib Replay Coverage Endpoint Handoff List Triple Journal World

variable {S : Setup}

/-! ## What everybody keeps to -/

/-- Identifiers are minted once and are not empty. -/
structure Minting (S : Setup) : Prop where
  injective : Function.Injective S.ids
  named : ∀ n, (S.ids n).isEmpty = false

/-- An identifier the worker never mints. -/
def NotMinted (S : Setup) (id : String) : Prop := ∀ n, S.ids n ≠ id

/-- The journal is that of the source, stands inside the saved audio, and knows none of the
    identifiers still to be minted. -/
structure Sane (w : World S) : Prop where
  stored : Stored w
  session : w.journal.header.sessionId = S.sessionId
  source : w.journal.header.source = S.source
  first : w.reader.firstSample ≤ w.journal.committed
  covered : w.journal.committed ≤ w.saved
  fresh : ∀ n, w.minted ≤ n → S.ids n ∉ w.journal.ids
  inbox : ∀ segment, StreamEvent.final segment ∈ w.inbox → NotMinted S segment.id

variable {v w : World S}

/-- A world with the same journal, up to what it says of its own writing, and more audio. -/
theorem Sane.of_same (hs : Sane w) (hstored : Stored v ∧ Extends w v)
    (hheader : v.journal.header = w.journal.header)
    (hcommitted : v.journal.committed = w.journal.committed) (hids : v.journal.ids = w.journal.ids)
    (hminted : w.minted ≤ v.minted)
    (hinbox : ∀ segment, StreamEvent.final segment ∈ v.inbox → NotMinted S segment.id) :
    Sane v := by
  obtain ⟨hstored, hgrown⟩ := hstored
  refine ⟨hstored, hheader ▸ hs.session, hheader ▸ hs.source, ?_, ?_, fun n hn => ?_, hinbox⟩
  · rw [hcommitted, hgrown.reader]
    exact hs.first
  · rw [hcommitted]
    exact le_trans hs.covered hgrown.saved_le
  · rw [hids]
    exact hs.fresh n (le_trans hminted hn)

/-- What the others leave alone. -/
structure Undisturbed (w v : World S) : Prop where
  foreign : Foreign w v
  grown : Extends w v

/-- The journal takes the text of the gap an error leaves. -/
def ReasonFits (error : SttError) : Prop :=
  (gapReason error).isEmpty = false ∧ (gapReason error).utf8ByteSize ≤ 512

/-- A failed utterance that is to be skipped has a text the journal takes. -/
def Skippable (S : Setup) : Label → World S → Prop
  | .transcribe chunk, w => ∀ error, S.recognize w.inferences chunk.samples = .error error →
      error.provider = speechdProvider → error.retryable = true → ReasonFits error
  | _, _ => True

/-- What a step hands to the journal on a local source passes its validation. -/
def Passes (name : Label) (w : World S) : Prop :=
  match name with
  | .commit throughSample segments => w.cloud.isSome = false →
      w.journal.validateCommit w.live (w.handed throughSample segments none) = .ok ()
  | .skip throughSample reason => w.cloud.isSome = false →
      w.journal.validateCommit w.live (w.handed throughSample [] (some reason)) = .ok ()
  | _ => True

variable {name : Label} {error : SttError}

theorem passes_quiet (h : name.quiet = true) (w : World S) : Passes name w := by
  cases name <;> trivial

def accountable (S : Setup) : Contract Label (World S) where
  inv := Sane
  rely := Undisturbed
  assumed := Skippable S
  promised name w _ := Passes name w
  rely_refl w := ⟨.refl w, .refl w⟩
  rely_trans h₁ h₂ := ⟨h₁.foreign.trans h₂.foreign, h₁.grown.trans h₂.grown⟩

/-- A piece of the worker. If it fails, nothing more is asked. -/
abbrev Works (S : Setup) {α : Type} (K : World S → Prop) (p : Worker S α)
    (Q : α → World S → Prop) : Prop :=
  Triple (accountable S) K p Q fun _ _ => True

/-! ## Steps beside the journal -/

theorem Apart.refl (w : World S) : Apart w w := (Private.refl w).toApart

/-- A section under the gate. -/
theorem apart_gate (gate : Publication) (events : List Sent) :
    Apart w (if w.gate.fenced then w else { w with gate, events }) := by
  split
  · exact .refl w
  · exact { Apart.refl w with }

theorem Apart.stored (h : Apart w v) (hs : Stored w) : Stored v ∧ Extends w v :=
  hs.of_stream h.stream h.reader

theorem Apart.undisturbed (h : Apart w v) (hs : Stored w) : Undisturbed w v :=
  ⟨h.toForeign, (h.stored hs).2⟩

theorem Apart.sane (h : Apart w v) (hs : Sane w) : Sane v := by
  refine hs.of_same (h.stored hs.stored) ?_ ?_ ?_ (le_of_eq h.minted.symm)
    fun segment hmem => hs.inbox segment (h.inbox hmem)
  all_goals rw [h.journal]

section Apart
variable {K : World S → Prop} (hK : (accountable S).Stable K)

include hK

variable {E : SttError → World S → Prop}

theorem apart_update (hname : name.quiet = true) {f : World S → World S} (h : ∀ w, Apart w (f w)) :
    Triple (accountable S) K (Proc.update name f : Worker S Unit) (fun _ => K) E :=
  update hK fun w hs hk _ => ⟨(h w).sane hs, passes_quiet hname w,
    hK w _ ((h w).undisturbed hs.stored) hk⟩

theorem quiet_read {α : Type} (hname : name.quiet = true) (f : World S → α) :
    Triple (accountable S) K (Proc.read name f : Worker S α) (fun a w => K w ∧ f w = a) E :=
  read hK fun w _ hk _ => ⟨passes_quiet hname w, hk, rfl⟩

theorem unlessFenced_keeps (message : String) :
    Works S K (unlessFenced message : Worker S Unit) (fun _ => K) := by
  refine bind (quiet_read hK rfl _) fun fenced => ?_
  cases fenced with
  | true => exact fail fun _ _ _ => trivial
  | false => exact pure fun _ _ h => h.1

theorem emit_keeps (event : StreamEvent) :
    Triple (accountable S) K (emit event : Worker S Unit) (fun _ => K) E :=
  apart_update hK rfl fun _ => apart_gate _ _

theorem commitStatus_keeps :
    Triple (accountable S) K (Proc.update .gate commitStatus : Worker S Unit)
      (fun _ => K) E :=
  apart_update hK rfl fun _ => apart_gate _ _

theorem noteGap_keeps (note : String) :
    Triple (accountable S) K (Proc.update .gate (noteGap note) : Worker S Unit)
      (fun _ => K) E :=
  apart_update hK rfl fun _ => apart_gate _ _

end Apart

/-! ## Handing over -/

/-- After a call on the journal: it has come to `throughSample`, or stands where it did. -/
structure Advanced (throughSample : ℕ) (w v : World S) : Prop where
  cloud : v.cloud = w.cloud
  epoch : v.journal.epoch = w.journal.epoch
  committed : v.journal.committed = w.journal.committed ∨ v.journal.committed = throughSample
  localCursor : v.localCursor = w.localCursor
  localBase : v.localBase = w.localBase
  localEndpoint : v.localEndpoint = w.localEndpoint
  grown : Extends w v

variable {throughSample : ℕ} {segments : List TranscriptSegment} {gap : Option String}

/-- What the journal makes of an interval keeps everything in order, if the segments' names are
    not to be minted again. -/
theorem record_sane (gap : Option String) (hs : Sane w)
    (hids : ∀ s ∈ segments, ∀ n, w.minted ≤ n → S.ids n ≠ s.id) :
    Sane (w.journalRecord throughSample segments gap).2 ∧
      Advanced throughSample w (w.journalRecord throughSample segments gap).2 := by
  obtain ⟨hstored, hgrown⟩ := hs.stored.journalRecord throughSample segments gap
  rcases record_wrote w throughSample segments gap with
    ⟨-, failed, validBytes, hj⟩ | ⟨⟨-, hprobe⟩, validBytes, hj⟩
  · refine ⟨hs.of_same ⟨hstored, hgrown⟩ ?_ ?_ ?_ (le_rfl) hs.inbox,
      rfl, by rw [hj], .inl (by rw [hj]), rfl, rfl, rfl, hgrown⟩
    all_goals rw [hj]
  · obtain ⟨hfirst, hsaved⟩ := (hs.stored.probe _).mp hprobe
    refine ⟨⟨hstored, ?_, ?_, ?_, ?_, ?_, hs.inbox⟩,
      rfl, by rw [hj]; rfl, .inr (by rw [hj]; rfl), rfl, rfl, rfl, hgrown⟩
    · rw [hj]
      exact hs.session
    · rw [hj]
      exact hs.source
    · rw [hj]
      exact hfirst
    · rw [hj]
      exact le_trans hsaved hgrown.saved_le
    · rw [hj]
      intro n hn hmem
      rcases mem_append.mp hmem with hmem | hmem
      · exact hs.fresh n hn hmem
      · obtain ⟨s, hs', hid⟩ := mem_map.mp hmem
        exact hids s hs' n hn hid.symm

section HandOver
variable {K K' : World S → Prop} (hK : (accountable S).Stable K)

include hK

/-- What is handed over must pass, and its segments' names be used up. -/
theorem record_triple (hvalid : ∀ w, Sane w → K w → Passes name w)
    (hids : ∀ w, Sane w → K w → ∀ s ∈ segments, ∀ n, w.minted ≤ n → S.ids n ≠ s.id)
    (hnext : ∀ w v, Sane w → K w → Advanced throughSample w v → K' v) :
    Works S K (Proc.atomic name (journalRecord throughSample segments gap)) fun _ => K' := by
  refine atomic hK fun w hs hk _ => ?_
  obtain ⟨hs', hadv⟩ := record_sane gap hs (hids w hs hk)
  refine ⟨hs', hvalid w hs hk, ?_⟩
  have hk' := hnext w _ hs hk hadv
  cases (w.journalRecord throughSample segments gap).1 with
  | error e => trivial
  | ok outcome => exact hk'

variable (hK' : (accountable S).Stable K')

include hK'

theorem commit_triple
    (hvalid : ∀ w, Sane w → K w → Passes (.commit throughSample segments) w)
    (hids : ∀ w, Sane w → K w → ∀ s ∈ segments, ∀ n, w.minted ≤ n → S.ids n ≠ s.id)
    (hnext : ∀ w v, Sane w → K w → Advanced throughSample w v → K' v) :
    Works S K (commit throughSample segments) (fun _ => K') := by
  refine bind (unlessFenced_keeps hK _) fun _ => ?_
  refine bind (record_triple hK hvalid hids hnext) fun outcome =>
    bind (commitStatus_keeps hK') fun _ => ?_
  cases outcome with
  | new => exact forEach fun segment _ => emit_keeps hK' (.final segment)
  | alreadyCommitted => exact pure fun _ _ h => h

theorem skip_triple {samples : ℕ}
    (hvalid : ∀ w, Sane w → K w → Passes (.skip throughSample (gapReason error)) w)
    (hnext : ∀ w v, Sane w → K w → Advanced throughSample w v → K' v) :
    Works S K (skip throughSample samples error) (fun _ => K') := by
  refine bind (unlessFenced_keeps hK _) fun _ => ?_
  exact bind (record_triple hK hvalid (fun _ _ _ => forall_mem_nil _) hnext)
    fun _ => bind (commitStatus_keeps hK') fun _ =>
    bind (noteGap_keeps hK' _) fun _ => emit_keeps hK' _

end HandOver

/-! ## One chunk -/

/-- The current epoch is the local engine's. -/
def OwnEpoch (w : World S) : Prop :=
  ∃ runtime, S.onDevice = some runtime ∧
    w.journal.epoch.engine.provider = runtime.factory.provider ∧
    w.journal.epoch.engine.model = runtime.factory.model

theorem OwnEpoch.congr (h : OwnEpoch w) (heq : v.journal.epoch = w.journal.epoch) : OwnEpoch v := by
  unfold OwnEpoch
  rw [heq]
  exact h

/-- A chunk that may be handed over next. -/
structure Due (chunk : Chunk) (w : World S) : Prop where
  offline : w.cloud.isSome = false
  engine : OwnEpoch w
  aligned : 16 ∣ chunk.startSample
  filled : chunk.samples ≠ []
  committed : w.journal.committed ≤ w.localBase + chunk.startSample
  saved : w.localBase + chunk.stop ≤ w.saved

/-- The segments made of a chunk, under names that were minted for them. -/
structure Made (runtime : LocalRuntime) (chunk : Chunk) (segments : List TranscriptSegment)
    (w : World S) : Prop where
  shaped : ∀ s ∈ segments, ∃ id r text,
    s = segmentFor ⟨S.sessionId, S.source, w.localBase / 16⟩ runtime.factory chunk id r text
  unique : (segments.map (·.id)).Nodup
  named : ∀ s ∈ segments, s.id.isEmpty = false
  unknown : ∀ s ∈ segments, s.id ∉ w.journal.ids
  spent : ∀ s ∈ segments, ∀ n, w.minted ≤ n → S.ids n ≠ s.id

variable {chunk : Chunk} {runtime : LocalRuntime}

section Due
variable (hd : Due chunk w) (hs : Sane w)
  (hthrough : w.localBase + chunk.startSample + chunk.samples.length = throughSample)

include hd hs hthrough

/-- The chunk's samples and milliseconds agree: its start falls on a whole millisecond after
    the base, and rounding its length down cannot carry. -/
theorem Due.segment (hon : S.onDevice = some runtime) {s : TranscriptSegment}
    (hnamed : s.id.isEmpty = false) {id : String} {r : Recognized} {text : String}
    (h : s = segmentFor ⟨S.sessionId, S.source, w.localBase / 16⟩ runtime.factory chunk id r text) :
    SegmentShape w.journal.header w.journal.epoch.engine (w.handed throughSample [] none) s := by
  obtain ⟨runtime', hon', hprovider, hmodel⟩ := hd.engine
  cases hon.symm.trans hon'
  obtain ⟨hstart, horder, hend⟩ := segmentFor_times
    ⟨S.sessionId, S.source, w.localBase / 16⟩ runtime.factory chunk id r text
  obtain ⟨k, hk⟩ := hd.aligned
  have hcommitted := hd.committed
  rw [← h] at hstart horder hend
  unfold Chunk.startMs samplesPerMs at hstart
  unfold Chunk.startMs Chunk.durationMs samplesPerMs at hend
  dsimp only at hstart hend
  refine ⟨hnamed, ?_, ?_, ?_, ?_, ?_, ?_, horder, ?_, ?_, ?_⟩
  · rw [h]
    rfl
  · rw [h]
    exact hs.session.symm
  · rw [h]
    exact hs.source.symm
  · rw [h]
    exact hprovider.symm
  · rw [h]
    exact hmodel.symm
  · show w.journal.committed / 16 ≤ s.startMs
    omega
  · show s.endMs ≤ throughSample / 16
    omega
  · rw [h]
    rfl
  · rw [h]
    rfl

/-- A chunk with its segments, or with the reason why it has none, passes the validation. -/
theorem Due.valid (hgap : ∀ reason ∈ gap,
      reason.isEmpty = false ∧ reason.utf8ByteSize ≤ 512 ∧ segments = [])
    (hunique : (segments.map (·.id)).Nodup) (hfresh : ∀ s ∈ segments, s.id ∉ w.journal.ids)
    (hsegments : ∀ s ∈ segments, SegmentShape w.journal.header w.journal.epoch.engine
      (w.handed throughSample [] none) s) :
    w.journal.validateCommit w.live (w.handed throughSample segments gap) = .ok () := by
  have hlen := length_pos_iff.mpr hd.filled
  have hcommitted := hd.committed
  have hsaved := hd.saved
  have hfirst := hs.first
  unfold Chunk.stop at hsaved
  refine validateCommit_eq_ok.mpr ⟨⟨rfl, rfl, ?_, hgap, hunique, hfresh, ?_⟩, ?_⟩
  · show w.journal.committed < throughSample
    omega
  · exact fun s hmem => { hsegments s hmem with }
  · refine (hs.stored.probe _).mpr ⟨?_, ?_⟩
    · show w.reader.firstSample ≤ throughSample
      omega
    · show throughSample ≤ w.saved
      omega

/-- So does the gap of a failed utterance, if the text of its reason fits. -/
theorem Due.gap_valid (hfits : ReasonFits error) :
    w.journal.validateCommit w.live (w.handed throughSample [] (some (gapReason error))) =
      .ok () := by
  refine hd.valid hs hthrough ?_ nodup_nil (forall_mem_nil _) (forall_mem_nil _)
  intro reason hreason
  cases hreason
  exact ⟨hfits.1, hfits.2, rfl⟩

end Due

theorem Made.congr (hm : Made runtime chunk segments w) (h : Undisturbed w v) :
    Made runtime chunk segments v := by
  refine ⟨?_, hm.unique, hm.named, ?_, ?_⟩
  · rw [h.foreign.localBase]
    exact hm.shaped
  · rw [h.foreign.journal]
    exact hm.unknown
  · rw [h.foreign.minted]
    exact hm.spent

theorem segments_made (hmint : Minting S) (hs : Sane w) (runtime : LocalRuntime) (chunk : Chunk)
    (recognized : List Recognized) :
    ∃ segments, (w.segments runtime chunk recognized).1 = .ok segments ∧
      Made runtime chunk segments (w.segments runtime chunk recognized).2 := by
  refine ⟨_, rfl, ?_⟩
  generalize hmade : segmentsFor S.spoken S.ids ⟨S.sessionId, S.source, w.localBase / 16⟩
    runtime.factory chunk w.minted recognized = made
  have hids := segmentsFor_ids S.spoken S.ids ⟨S.sessionId, S.source, w.localBase / 16⟩
    runtime.factory chunk w.minted recognized
  rw [hmade] at hids
  have hnumber : ∀ s ∈ made, ∃ n, w.minted ≤ n ∧ n < w.minted + made.length ∧ S.ids n = s.id := by
    intro s hmem
    have hid : s.id ∈ made.map (·.id) := mem_map_of_mem hmem
    rw [hids] at hid
    obtain ⟨n, hn, heq⟩ := mem_map.mp hid
    obtain ⟨hlow, hhigh⟩ := mem_range'_1.mp hn
    exact ⟨n, hlow, hhigh, heq⟩
  have hafter : (w.segments runtime chunk recognized).2.minted = w.minted + made.length := by
    rw [← hmade]
    rfl
  refine ⟨?_, ?_, ?_, ?_, ?_⟩
  · intro s hmem
    rw [← hmade] at hmem
    exact exists_of_mem_segmentsFor hmem
  · rw [hids]
    exact (nodup_range').map hmint.injective
  · intro s hmem
    obtain ⟨n, -, -, heq⟩ := hnumber s hmem
    exact heq ▸ hmint.named n
  · intro s hmem
    obtain ⟨n, hlow, -, heq⟩ := hnumber s hmem
    exact heq ▸ hs.fresh n hlow
  · intro s hmem n hn heq
    obtain ⟨k, -, hhigh, hk⟩ := hnumber s hmem
    have := hmint.injective (heq.trans hk.symm)
    omega

theorem segments_apart (w : World S) (runtime : LocalRuntime) (chunk : Chunk)
    (recognized : List Recognized) (hs : Sane w) :
    Sane (w.segments runtime chunk recognized).2 := by
  refine { hs with stored := { hs.stored with }, fresh := ?_ }
  exact fun n hn => hs.fresh n (Nat.le_trans (Nat.le_add_right _ _) hn)

/-- An assertion about positions: it does not look at what was minted. -/
def Positional (K : World S → Prop) : Prop :=
  ∀ w v, v.journal = w.journal → v.cloud.isSome = w.cloud.isSome →
    v.localCursor = w.localCursor → v.localBase = w.localBase →
    v.localEndpoint = w.localEndpoint → Extends w v → K w → K v

variable {K : World S → Prop}

theorem Positional.stable (h : Positional K) : (accountable S).Stable K :=
  fun w v hr => h w v hr.foreign.journal hr.foreign.cloud hr.foreign.localCursor
    hr.foreign.localBase hr.foreign.localEndpoint hr.grown

variable {K' : World S → Prop}

theorem and_stable (h : (accountable S).Stable K) (h' : (accountable S).Stable K') :
    (accountable S).Stable fun w => K w ∧ K' w := fun w v hr hk => ⟨h w v hr hk.1, h' w v hr hk.2⟩

theorem base_stable (base : ℕ) : (accountable S).Stable fun w => w.localBase = base :=
  fun _ _ hr h => hr.foreign.localBase.trans h

/-- One chunk through the recogniser and into the journal. -/
theorem infer_triple (hmint : Minting S) (hK : Positional K) (hK' : Positional K')
    (hdue : ∀ w, Sane w → K w → Due chunk w)
    (hnext : ∀ w v, Sane w → K w →
      Advanced (w.localBase + chunk.startSample + chunk.samples.length) w v → K' v) :
    Works S K (infer chunk) (fun _ => K') := by
  have hstable := hK.stable
  refine bind (unlessFenced_keeps hstable _) fun _ => ?_
  refine bind (Q := fun answer w => K w ∧ ∀ error, answer = .error error →
    error.provider = speechdProvider → error.retryable = true → ReasonFits error) ?_
    fun answer => ?_
  · refine atomic hstable fun w hs hk hass => ?_
    have hapart : Apart w { w with inferences := w.inferences + 1 } := { Apart.refl w with }
    exact ⟨hapart.sane hs, trivial, hstable w _ (hapart.undisturbed hs.stored) hk, hass⟩
  · cases answer with
    | error error =>
      refine bind (quiet_read (and_stable hstable fun _ _ _ h => h) rfl _) fun base => ?_
      split
      · next hgap =>
        rw [Bool.and_eq_true, decide_eq_true_eq] at hgap
        refine (skip_triple (K := fun w => (K w ∧ ReasonFits error) ∧ w.localBase = base)
          (and_stable (and_stable hstable fun _ _ _ h => h) (base_stable base)) hK'.stable
          ?_ ?_).pre fun w _ h => ⟨⟨h.1.1, h.1.2 error rfl hgap.1 hgap.2⟩, h.2⟩
        · rintro w hs ⟨⟨hk, hfits⟩, rfl⟩ -
          exact (hdue w hs hk).gap_valid hs rfl hfits
        · rintro w v hs ⟨⟨hk, -⟩, rfl⟩ hadv
          exact hnext w v hs hk hadv
      · exact fail fun _ _ _ => trivial
    | ok recognized =>
      refine bind ((unlessFenced_keeps hstable _).pre fun _ _ h => h.1) fun _ => ?_
      split
      · exact fail fun _ _ _ => trivial
      rename_i runtime hon
      refine bind (Q := fun segments w => K w ∧ Made runtime chunk segments w) ?_
        fun segments => ?_
      · refine atomic hstable fun w hs hk _ => ?_
        obtain ⟨segments, hok, hmade⟩ := segments_made hmint hs runtime chunk recognized
        refine ⟨segments_apart w runtime chunk recognized hs, trivial, ?_⟩
        rw [hok]
        exact ⟨hK w _ rfl rfl rfl rfl rfl ⟨rfl, prefix_refl _⟩ hk, hmade⟩
      · have hboth : (accountable S).Stable fun w => K w ∧ Made runtime chunk segments w :=
          and_stable hstable fun w v hr h => h.congr hr
        refine bind (quiet_read hboth rfl _) fun base => ?_
        refine commit_triple (and_stable hboth (base_stable base)) hK'.stable ?_ ?_ ?_
        · rintro w hs ⟨⟨hk, hmade⟩, rfl⟩ -
          refine (hdue w hs hk).valid hs rfl nofun hmade.unique hmade.unknown fun s hmem => ?_
          obtain ⟨id, r, text, h⟩ := hmade.shaped s hmem
          exact (hdue w hs hk).segment hs rfl hon (hmade.named s hmem) h
        · exact fun w _ hk => hk.1.2.spent
        · rintro w v hs ⟨⟨hk, -⟩, rfl⟩ hadv
          exact hnext w v hs hk hadv

/-! ## The local pass -/

/-- The positions of a local source with some chunks still to be handed over: the journal is
    not past them, they are not past what the endpointer has let go of, and the endpointer has
    heard what is saved up to the cursor. -/
structure Working (chunks : List Chunk) (w : World S) : Prop where
  offline : w.cloud.isSome = false
  engine : OwnEpoch w
  aligned : Aligned w.localEndpoint
  cursor : w.localBase + w.localEndpoint.heard = w.localCursor
  saved : w.localCursor ≤ w.saved
  ordered : ∃ low, w.journal.committed ≤ w.localBase + low ∧
    InOrder low chunks w.localEndpoint.safeThroughSample

theorem Working.positional (chunks : List Chunk) :
    Positional (Working chunks : World S → Prop) := by
  intro w v hjournal hcloud hcursor hbase hendpoint hgrown h
  refine ⟨hcloud ▸ h.offline, h.engine.congr (by rw [hjournal]), hendpoint ▸ h.aligned, ?_, ?_, ?_⟩
  · rw [hbase, hendpoint, hcursor]
    exact h.cursor
  · rw [hcursor]
    exact le_trans h.saved hgrown.saved_le
  · rw [hjournal, hbase, hendpoint]
    exact h.ordered

variable {rest : List Chunk}

theorem Working.due (h : Working (chunk :: rest) w) : Due chunk w := by
  obtain ⟨low, hcommitted, hlow, haligned, -, hfilled, hrest⟩ := h.ordered
  refine ⟨h.offline, h.engine, haligned, hfilled, by omega, ?_⟩
  have hsafe := InOrder.le hrest
  have hheard := h.aligned.safe_le_heard
  have hcursor := h.cursor
  have hsaved := h.saved
  omega

/-- The positions after a call on the journal. -/
theorem Working.advanced {chunks : List Chunk} {low : ℕ} (h : Working chunks w)
    (hadv : Advanced throughSample w v) (hcommitted : v.journal.committed ≤ w.localBase + low)
    (hrest : InOrder low rest w.localEndpoint.safeThroughSample) : Working rest v := by
  refine ⟨hadv.cloud ▸ h.offline, h.engine.congr hadv.epoch, hadv.localEndpoint ▸ h.aligned,
    ?_, ?_, low, ?_, ?_⟩
  · rw [hadv.localBase, hadv.localEndpoint, hadv.localCursor]
    exact h.cursor
  · rw [hadv.localCursor]
    exact le_trans h.saved hadv.grown.saved_le
  · rw [hadv.localBase]
    exact hcommitted
  · rw [hadv.localEndpoint]
    exact hrest

theorem Working.next (h : Working (chunk :: rest) w)
    (hadv : Advanced (w.localBase + chunk.startSample + chunk.samples.length) w v) :
    Working rest v := by
  obtain ⟨low, hcommitted, hlow, -, -, -, hrest⟩ := h.ordered
  refine h.advanced hadv ?_ hrest
  unfold Chunk.stop
  rcases hadv.committed with hsame | hnew <;> omega

/-- A commit of silence up to `throughSample`. -/
theorem silence_valid (hs : Sane w) (hgrows : w.journal.committed < throughSample)
    (hsaved : throughSample ≤ w.saved) :
    w.journal.validateCommit w.live (w.handed throughSample [] none) = .ok () := by
  refine validateCommit_eq_ok.mpr ⟨⟨rfl, rfl, hgrows, nofun, nodup_nil,
    forall_mem_nil _, forall_mem_nil _⟩, ?_⟩
  refine (hs.stored.probe _).mpr ⟨?_, hsaved⟩
  exact le_trans hs.first (le_of_lt hgrows)

theorem commitSafe_triple : Works S (Working []) commitSafe (fun _ => Working []) := by
  have hstable := (Working.positional (S := S) []).stable
  refine bind (quiet_read hstable rfl _) fun safe => ?_
  have hsafe : (accountable S).Stable fun w => Working [] w ∧
      w.localBase + w.localEndpoint.safeThroughSample = safe :=
    and_stable hstable fun w v hr h => by
      rw [hr.foreign.localBase, hr.foreign.localEndpoint]
      exact h
  refine bind (quiet_read hsafe rfl _) fun committed => ?_
  split
  · next hlt =>
    have hcommitted : (accountable S).Stable fun w => w.journal.committed = committed :=
      fun w v hr h => (congrArg Journal.committed hr.foreign.journal).trans h
    refine commit_triple (and_stable hsafe hcommitted) hstable ?_
      (fun _ _ _ => forall_mem_nil _) ?_
    · rintro w hs ⟨⟨hwork, rfl⟩, rfl⟩ -
      have hheard := hwork.aligned.safe_le_heard
      have hcursor := hwork.cursor
      have hsaved := hwork.saved
      exact silence_valid hs hlt (by omega)
    · rintro w v hs ⟨⟨hwork, rfl⟩, rfl⟩ hadv
      refine hwork.advanced hadv ?_ (le_refl w.localEndpoint.safeThroughSample)
      rcases hadv.committed with hsame | hnew <;> omega
  · exact pure fun _ _ h => h.1.1

/-- Everything handed over, and the cursor known. -/
abbrev WorkingAt (cursor : ℕ) (w : World S) : Prop := Working [] w ∧ w.localCursor = cursor

theorem workingAt_stable (cursor : ℕ) : (accountable S).Stable (WorkingAt cursor) :=
  and_stable (Working.positional []).stable fun _ _ hr h => hr.foreign.localCursor.trans h

theorem readPcm_triple (last cursor : ℕ) : Works S (WorkingAt cursor) (readPcm cursor last)
      (fun pcm w => WorkingAt cursor w ∧ cursor + pcm.length ≤ w.saved) := by
  refine atomic (workingAt_stable cursor) fun w hs hk _ => ⟨hs, trivial, ?_⟩
  cases hread : (w.readPcm cursor last).1 with
  | error e => trivial
  | ok pcm => exact ⟨hk, Reader.readFrom_length hs.stored.availableEnd (mapError_eq_ok hread)⟩

theorem pushLocal_triple (cursor : ℕ) (pcm : List Sample) :
    Works S (fun w => WorkingAt cursor w ∧ cursor + pcm.length ≤ w.saved)
      (Proc.atomic .own (pushLocal pcm)) (fun chunks => Working chunks) := by
  refine atomic (and_stable (workingAt_stable cursor) fun _ _ hr h =>
    le_trans h hr.grown.saved_le) fun w hs hk _ => ?_
  obtain ⟨⟨hwork, rfl⟩, hsaved⟩ := hk
  obtain ⟨haligned, hheard, horder⟩ := push_spec hwork.aligned pcm
  refine ⟨{ hs with stored := { hs.stored with } }, trivial, ?_⟩
  obtain ⟨low, hcommitted, hlow⟩ := hwork.ordered
  refine ⟨hwork.offline, hwork.engine, haligned, ?_, hsaved,
    w.localEndpoint.safeThroughSample, ?_, horder⟩
  · show w.localBase + (w.localEndpoint.push pcm).2.heard = w.localCursor + pcm.length
    rw [hheard, ← add_assoc, hwork.cursor]
  · exact Nat.le_trans hcommitted (Nat.add_le_add_left (InOrder.le hlow) _)

theorem localAudio_triple (hmint : Minting S) (last : ℕ) :
    Works S (Working []) (localAudio last) (fun _ => Working []) := by
  refine bind (quiet_read (Working.positional []).stable rfl _) fun cursor => ?_
  split
  · refine bind (readPcm_triple last cursor) fun pcm => ?_
    refine bind (pushLocal_triple cursor pcm) fun chunks => ?_
    refine bind (forEach_rest (I := fun chunks => Working chunks)
      (fun chunk rest => ?_) chunks) fun _ => commitSafe_triple
    exact infer_triple hmint (Working.positional _) (Working.positional _)
      (fun w _ h => h.due) (fun w v _ h hadv => h.next hadv)
  · exact pure fun _ _ h => h.1

/-! ## The tail -/

variable (last : ℕ)

/-- The last chunk of a closed source, if there is one, reaches up to its end. -/
structure Closing (chunk : Option Chunk) (w : World S) : Prop where
  saved : last ≤ w.saved
  due : ∀ c, chunk = some c → Due c w

theorem Closing.positional (chunk : Option Chunk) :
    Positional (Closing last chunk : World S → Prop) := by
  intro w v hjournal hcloud hcursor hbase hendpoint hgrown h
  refine ⟨le_trans h.saved hgrown.saved_le, fun c hc => ?_⟩
  have hd := h.due c hc
  refine ⟨hcloud ▸ hd.offline, hd.engine.congr (by rw [hjournal]), hd.aligned, hd.filled, ?_, ?_⟩
  · rw [hjournal, hbase]
    exact hd.committed
  · rw [hbase]
    exact le_trans hd.saved hgrown.saved_le

theorem flushLocal_triple : Works S (WorkingAt last) (Proc.atomic .own flushLocal)
      (fun chunk => Closing last chunk) := by
  refine atomic (workingAt_stable last) fun w hs hk _ => ?_
  obtain ⟨hwork, rfl⟩ := hk
  refine ⟨{ hs with stored := { hs.stored with } }, trivial, hwork.saved, fun chunk hchunk => ?_⟩
  obtain ⟨hstart, hstop, hfilled⟩ := flush_spec hwork.aligned hchunk
  obtain ⟨low, hcommitted, hlow⟩ := hwork.ordered
  have hlow : low ≤ w.localEndpoint.safeThroughSample := hlow
  refine ⟨hwork.offline, hwork.engine, ?_, hfilled, ?_, ?_⟩
  · rw [hstart]
    exact hwork.aligned.dvd_safe
  · show w.journal.committed ≤ w.localBase + chunk.startSample
    omega
  · show w.localBase + chunk.stop ≤ w.saved
    rw [hstop, hwork.cursor]
    exact hwork.saved

theorem commitRest_triple : Works S (Closing last none) (commitRest last)
      (fun _ => Closing last none) := by
  have hstable := (Closing.positional (S := S) last none).stable
  refine bind (quiet_read hstable rfl _) fun committed => ?_
  split
  · next hlt =>
    refine commit_triple (and_stable hstable fun w v hr h =>
      (congrArg Journal.committed hr.foreign.journal).trans h) hstable ?_
      (fun _ _ _ => forall_mem_nil _) ?_
    · rintro w hs ⟨hclosing, rfl⟩ -
      exact silence_valid hs hlt hclosing.saved
    · rintro w v hs ⟨hclosing, -⟩ hadv
      exact ⟨le_trans hclosing.saved hadv.grown.saved_le, nofun⟩
  · exact pure fun _ _ h => h.1

theorem trivial_stable : (accountable S).Stable fun _ => True := fun _ _ _ _ => trivial

theorem trivial_read {α : Type} (hname : name.quiet = true) (f : World S → α) :
    Triple (accountable S) (fun _ => True) (Proc.read name f : Worker S α) (fun _ _ => True)
      (fun _ _ => True) :=
  (quiet_read trivial_stable hname f).post fun _ _ _ _ => trivial

theorem markComplete_sane (hs : Sane w) (last : ℕ) : Sane (w.markComplete last).2 := by
  obtain ⟨hstored, hgrown⟩ := hs.stored.markComplete last
  exact { hs with stored := hstored, covered := le_trans hs.covered hgrown.saved_le }

theorem complete_triple (last : ℕ) : Works S (fun _ => True) (complete last) (fun _ _ => True) := by
  refine bind (unlessFenced_keeps trivial_stable _) fun _ =>
    bind (trivial_read rfl _) fun closed =>
    bind (trivial_read rfl _) fun committed => ?_
  split
  · exact fail fun _ _ _ => trivial
  · split
    · exact pure fun _ _ _ => trivial
    · refine atomic trivial_stable fun w hs _ _ =>
        ⟨markComplete_sane hs last, trivial, ?_⟩
      cases (w.markComplete last).1 <;> trivial

theorem localTail_triple (hmint : Minting S) (last : ℕ) :
    Works S (WorkingAt last) (localTail last) (fun _ _ => True) := by
  refine bind (flushLocal_triple last) fun chunk => ?_
  refine bind (Q := fun _ => Closing last none) ?_ fun _ =>
    bind (commitRest_triple last) fun _ =>
    (complete_triple last).pre fun _ _ _ => trivial
  cases chunk with
  | none => exact pure fun _ _ h => h
  | some chunk =>
    refine bind (infer_triple hmint (Closing.positional last (some chunk))
      (Closing.positional last none) (fun w _ h => h.due chunk rfl) ?_) fun _ =>
      pure fun _ _ h => h
    exact fun w v _ h hadv => ⟨le_trans h.saved hadv.grown.saved_le, nofun⟩

theorem localPass_triple (hmint : Minting S) (last : ℕ) : Works S (Working []) (localPass last)
      (Control.leaves (Working []) fun _ => True) := by
  refine bind (localAudio_triple hmint last) fun _ => ?_
  refine bind (Q := fun _ => Working [])
    (read (Working.positional []).stable fun _ _ h _ => ⟨trivial, h⟩) fun closed => ?_
  split
  · refine bind (quiet_read (Working.positional []).stable rfl _) fun cursor => ?_
    split
    · next hlast =>
      subst hlast
      exact bind (localTail_triple hmint _) fun _ => pure fun _ _ _ => trivial
    · exact pure fun _ _ h => h.1
  · exact pure fun _ _ h => h

/-! ## On the cloud, and off it -/

def OnCloud (w : World S) : Prop := w.cloud.isSome = true

theorem onCloud_stable : (accountable S).Stable OnCloud := fun _ _ hr h => hr.foreign.cloud.trans h

theorem cloudFinal_triple {segment : TranscriptSegment} (h : NotMinted S segment.id) :
    Works S OnCloud (cloudFinal segment) (fun _ => OnCloud) := by
  unfold cloudFinal
  split
  · exact fail fun _ _ _ => trivial
  refine bind (quiet_read onCloud_stable rfl _) fun committed => ?_
  split
  · refine bind ((commit_triple onCloud_stable onCloud_stable ?_ ?_ ?_).pre
      fun _ _ h => h.1) fun _ =>
      apart_update (f := confirmedFinal) onCloud_stable rfl fun w => { Apart.refl w with }
    · intro w _ hon hoff
      exact nomatch hon.symm.trans hoff
    · intro w _ _ s hmem n _
      rw [mem_singleton.mp hmem]
      exact h n
    · intro w v _ hon hadv
      show v.cloud.isSome = true
      rw [hadv.cloud]
      exact hon
  · exact pure fun _ _ h => h.1

theorem journalSwitch_sane (hs : Sane w) (engine : EngineDescriptor) (reason : SwitchReason) :
    Sane (w.journalSwitch engine reason).2 := by
  have hsame : (w.journalSwitch engine reason).2.journal.header = w.journal.header ∧
      (w.journalSwitch engine reason).2.journal.committed = w.journal.committed ∧
      (w.journalSwitch engine reason).2.journal.ids = w.journal.ids := by
    rcases switch_wrote w engine reason with ⟨-, _, _, hj⟩ | ⟨epoch, _, -, -, hj⟩
    · rw [hj]
      exact ⟨rfl, rfl, rfl⟩
    · rw [hj]
      exact ⟨rfl, rfl, rfl⟩
  exact hs.of_same (hs.stored.journalSwitch engine reason) hsame.1 hsame.2.1 hsame.2.2
    (le_rfl) hs.inbox

/-- The source goes local at the committed sample, in an epoch of the local engine. -/
theorem demoteLocal_triple (reason : SwitchReason) :
    Works S OnCloud (demoteLocal reason) (fun _ => Working []) := by
  unfold demoteLocal
  split
  · exact fail fun _ _ _ => trivial
  rename_i runtime hon
  refine bind (Q := fun _ w => w.cloud.isSome = false) ?_ fun _ => ?_
  · refine update onCloud_stable fun w hs _ _ => ?_
    exact ⟨{ hs with stored := { hs.stored with }, inbox := fun _ h => (nomatch h) }, trivial, rfl⟩
  · have hoff : (accountable S).Stable fun w => w.cloud.isSome = false :=
      fun _ _ hr h => hr.foreign.cloud.trans h
    have hown : (accountable S).Stable fun w => w.cloud.isSome = false ∧ OwnEpoch w :=
      and_stable hoff fun w v hr h => h.congr (by rw [hr.foreign.journal])
    refine bind (Q := fun _ w => w.cloud.isSome = false ∧ OwnEpoch w) ?_ fun epoch => ?_
    · refine atomic hoff fun w hs hk _ =>
        ⟨journalSwitch_sane hs runtime.engine reason, trivial, ?_⟩
      cases hr : (w.journalSwitch runtime.engine reason).1 with
      | error e => trivial
      | ok epoch =>
        refine ⟨hk, runtime, hon, ?_⟩
        rcases switch_wrote w runtime.engine reason with ⟨hno, -⟩ | ⟨epoch', _, he, -, hj⟩
        · exact (hno epoch hr).elim
        · have hepoch : (w.journalSwitch runtime.engine reason).2.journal.epoch = epoch' :=
            congrArg Journal.epoch hj
          rw [hepoch, he]
          exact ⟨rfl, rfl⟩
    · refine bind (Q := fun _ => Working []) ?_ fun _ => ?_
      · refine update hown fun w hs hk _ => ?_
        refine ⟨{ hs with stored := { hs.stored with } }, trivial, ?_⟩
        exact ⟨hk.1, hk.2, aligned_new S.endpoint, rfl, hs.covered, 0, le_rfl, Nat.zero_le _⟩
      · exact bind (apart_update (Working.positional []).stable rfl fun _ =>
          apart_gate _ _) fun _ => unlessFenced_keeps (Working.positional []).stable _

theorem cloudStop_triple (last : ℕ) : Works S OnCloud (cloudStop last)
      (Control.leaves (fun w => w.cloud.isSome = false → Working [] w) fun _ => True) := by
  refine bind (quiet_read onCloud_stable rfl _) fun committed => ?_
  split
  · exact bind ((complete_triple last).pre fun _ _ _ => trivial) fun _ =>
      pure fun _ _ _ => trivial
  · refine bind (Q := fun _ => OnCloud) ?_ fun settled => ?_
    · refine atomic (P := OnCloud) onCloud_stable (fun w hs hk _ => ?_) |>.pre fun _ _ h => h.1
      have hapart : Apart w w.settling.2 := { Apart.refl w with }
      exact ⟨hapart.sane hs, trivial, hk⟩
    · split
      · exact bind (demoteLocal_triple _) fun _ => pure fun _ _ h _ => h
      · exact pure fun _ _ h hoff => nomatch h.symm.trans hoff

/-- The loop of a source, with its positions in order whenever it is local. -/
def working (hmint : Minting S) : Outline (accountable S) where
  between w := w.cloud.isSome = false → Working [] w
  online := OnCloud
  onDevice := Working []
  ending _ := OnCloud
  ended _ := True
  failed _ _ := True
  handed event := ∀ segment, event = .final segment → NotMinted S segment.id
  stable w v hr h hoff :=
    (Working.positional []).stable w v hr (h (hr.foreign.cloud.symm.trans hoff))
  online_stable := onCloud_stable
  idle _ w hname _ _ := passes_quiet hname w
  private_step _ w _ hname h hs hon :=
    ⟨h.toApart.sane hs, passes_quiet hname w, h.cloud.trans hon⟩
  staysOnline _ _ _ h := h
  goesLocal _ _ h hoff := h hoff
  online_between _ _ hon hoff := nomatch hon.symm.trans hoff
  received _ hs event hmem segment heq := hs.inbox segment (heq ▸ hmem)
  surfaced _ _ _ _ _ := trivial
  unlessFenced := unlessFenced_keeps fun w v hr h hoff =>
    (Working.positional []).stable w v hr (h (hr.foreign.cloud.symm.trans hoff))
  readPcm cursor last := by
    refine Triple.atomic onCloud_stable fun w hs hon _ => ⟨hs, trivial, ?_⟩
    cases (w.readPcm cursor last).1 with
    | error e => trivial
    | ok pcm => exact hon
  emit event _ := emit_keeps onCloud_stable event
  cloudFinal segment h := cloudFinal_triple (h segment rfl)
  demoteLocal reason := (demoteLocal_triple reason).post fun _ _ _ h _ => h
  closedTest last := Triple.read onCloud_stable fun w _ hon _ => by
    refine ⟨trivial, ?_⟩
    cases w.inputClosed with
    | true => exact hon
    | false => exact fun hoff => nomatch hon.symm.trans hoff
  cloudStop := cloudStop_triple
  localPass last := (localPass_triple hmint last).post fun control _ _ h => match control with
    | .again => fun _ => h
    | .completed => trivial

/-! ## Runs -/

/-- Somebody else's move. Nobody else uses a name the worker mints. -/
def MovedElsewhere (w v : World S) : Prop :=
  ∃ move, w.move move = some v ∧
    ∀ segment, move = .provider (.final segment) → NotMinted S segment.id

theorem MovedElsewhere.sane (h : MovedElsewhere w v) (hs : Sane w) : Sane v ∧ Undisturbed w v := by
  obtain ⟨move, hmove, hnames⟩ := h
  obtain ⟨hstored, hgrown⟩ := move_stored hs.stored hmove
  obtain ⟨hforeign, hinbox, -⟩ := move_effect hmove
  refine ⟨hs.of_same ⟨hstored, hgrown⟩ ?_ ?_ ?_ (le_of_eq hforeign.minted.symm)
    fun segment hmem => ?_, hforeign, hgrown⟩
  · rw [hforeign.journal]
  · rw [hforeign.journal]
  · rw [hforeign.journal]
  · rcases hinbox with hsub | ⟨event, rfl, hsub⟩
    · exact hs.inbox segment (hsub hmem)
    · rcases mem_append.mp (hsub hmem) with hold | hnew
      · exact hs.inbox segment hold
      · obtain rfl := mem_singleton.mp hnew
        exact hnames segment rfl

/-- A source as it is launched: over a journal inside the saved audio, at the committed
    sample, with the local engine's epoch if it is local. -/
structure Started (w : World S) : Prop where
  sane : Sane w
  localBase : w.localBase = w.journal.committed
  localCursor : w.localCursor = w.journal.committed
  localEndpoint : w.localEndpoint = .new S.acoustics S.endpoint
  engine : w.cloud.isSome = false → OwnEpoch w

theorem Started.working (h : Started w) (hoff : w.cloud.isSome = false) : Working [] w := by
  refine ⟨hoff, h.engine hoff, ?_, ?_, ?_, 0, ?_, Nat.zero_le _⟩
  · rw [h.localEndpoint]
    exact aligned_new S.endpoint
  · rw [h.localEndpoint, h.localBase, h.localCursor]
    rfl
  · rw [h.localCursor]
    exact h.sane.covered
  · rw [h.localBase]
    exact le_rfl

theorem terminal_keeps (error : Option SttError) {P : World S → Prop} :
    Triple (accountable S) P (Proc.update .gate (terminal error) : Worker S Unit)
      (fun _ _ => True) (fun _ _ => False) := by
  exact (apart_update trivial_stable rfl fun _ => apart_gate _ _).pre fun _ _ _ => trivial

/-- What the thread leaves behind: everything in order if it goes on. -/
def GoesOn (running : Bool) (w : World S) : Prop :=
  running = true → w.cloud.isSome = false → Working [] w

theorem thread_working (hmint : Minting S) :
    Triple (accountable S) (fun w => w.cloud.isSome = false → Working [] w)
      (thread : Worker S Bool) GoesOn (fun _ _ => False) :=
  ((working hmint).thread (terminal_keeps none) fun error => terminal_keeps (some error)).post
    fun _ _ _ h hrunning => by
      subst hrunning
      exact h

theorem program_working (hmint : Minting S) {p : Worker S Bool} (hp : Program p) :
    Triple (accountable S) (fun w => w.cloud.isSome = false → Working [] w) p GoesOn
      (fun _ _ => False) := by
  cases hp with
  | thread => exact thread_working hmint
  | liveThread load =>
    have hstable := (working hmint).stable
    refine bind (emit_keeps hstable _) fun _ => ?_
    cases load with
    | error error =>
      exact bind (terminal_keeps _) fun _ => pure fun _ _ _ h => nomatch h
    | ok =>
      exact bind (emit_keeps hstable _) fun _ => pure fun _ _ h _ => h

theorem working_covered (hmint : Minting S) :
    Covered (accountable S) MovedElsewhere (Skippable S) again
      (fun r w => Sane w ∧ ends GoesOn (fun _ _ => False) r w) where
  env_inv _ _ h hs := (h.sane hs).1
  env_rely _ _ h hs := (h.sane hs).2
  allowed_assumed _ _ h := h
  stable r w v hrely hs h := by
    refine ⟨hs, ?_⟩
    cases r with
    | error e => exact h.2
    | ok running => exact fun hrun => (working hmint).stable w v hrely (h.2 hrun)
  restart running p w hagain hs h := by
    cases running with
    | false => cases hagain
    | true =>
      cases hagain
      exact thread_working hmint w hs (h.2 rfl)

/-- In every run of a source in which the text of every gap fits: whatever a local source hands
    to the journal passes its validation. -/
theorem local_work_passes (hmint : Minting S) {w : World S} {p : Worker S Bool}
    (hstart : Started w) (hp : Program p) {t : World S} {name : Label}
    {act : World S → World S} {next : World S → Worker S Bool}
    (hrun : Steps MovedElsewhere (Skippable S) again (w, p) (t, .step name act next))
    (hlocal : t.cloud.isSome = false) :
    (∀ throughSample segments, name = .commit throughSample segments →
      t.journal.validateCommit t.live (t.handed throughSample segments none) = .ok ()) ∧
    (∀ throughSample reason, name = .skip throughSample reason →
      t.journal.validateCommit t.live (t.handed throughSample [] (some reason)) = .ok ()) := by
  have hsafe := program_working hmint hp w hstart.sane hstart.working
  constructor
  · rintro throughSample segments rfl
    exact Steps.promised (working_covered hmint) hstart.sane hsafe hrun trivial hlocal
  · rintro throughSample reason rfl
    exact Steps.promised (working_covered hmint) hstart.sane hsafe hrun trivial hlocal

/-! ## One utterance of two milliseconds -/

variable (recognize : Except SttError (List Recognized))

/-- Everything is speech, and an utterance is cut after two milliseconds. -/
def loudSetup : Setup :=
  { sampleSetup with
    acoustics := { silentAcoustics with
      hear := fun _ _ => (⟨true, true⟩, ())
      swings := fun _ _ => true }
    endpoint := { sampleEndpoint with hardMaxMs := 2 }
    onDevice := some ⟨⟨"fotw-speechd", "base.en", none⟩, ⟨helperEngine, none, sampleEndpoint⟩⟩
    recognize := fun _ _ => recognize }
where
  helperEngine : EngineDescriptor := ⟨"fotw-speechd", "base.en", none⟩

/-- A local source over one utterance. -/
def loudSource : World (loudSetup recognize) :=
  sampleWorld (loudSetup recognize) ⟨1, "s", .system, 0, loudSetup.helperEngine, none⟩
    (List.replicate 32 0) none

theorem loudSource_length : (loudSource recognize).file.bytes.length = 149 := by
  have h : (DurableFile.empty.write
    (sampleAudioHeader ++ encodePcm (replicate 32 0))).sync.bytes.length = 149 := by
    decide +kernel
  exact h

theorem loudSource_started : Started (loudSource recognize) where
  sane := by
    have hlen := loudSource_length recognize
    have hsaved : (loudSource recognize).saved = 32 := by
      unfold saved
      rw [hlen]
      show 0 + (149 - 85) / 2 = 32
      decide
    refine ⟨⟨?_, ?_, ?_⟩, rfl, rfl, Nat.le_refl _, Nat.zero_le _, fun _ _ h => (nomatch h),
      fun _ h => (nomatch h)⟩
    · rw [hlen]
      show 85 ≤ 149
      decide
    · rw [hsaved]
      decide
    · intro writer hwriter _
      cases hwriter
      rw [hsaved, hlen]
      show 32 = 32 ∧ (149 - 85) % 2 = 0
      decide
  localBase := rfl
  localCursor := rfl
  localEndpoint := rfl
  engine _ := ⟨_, rfl, rfl, rfl⟩

theorem loudSetup_minting : Minting (loudSetup recognize) where
  injective n m h := by
    have hlen := congrArg String.length h
    simpa [loudSetup, sampleSetup] using hlen
  named n := by
    simp [loudSetup, sampleSetup, replicate_succ]

set_option maxRecDepth 20000 in
/-- The utterance is recognised, and its segment handed over with a commit of all 32 samples. -/
theorem local_work_passes_utterance : ∃ t act next segment,
      Lib.play (fun (_ : Unit) (_ : World (loudSetup (.ok [⟨0, 5, "hi"⟩]))) => none)
        (fun _ _ => true) again (List.replicate 14 .own)
        (loudSource (.ok [⟨0, 5, "hi"⟩]), thread) =
          some (t, .step (.commit 32 [segment]) act next) ∧
      segment.text = "hi" ∧ segment.startMs = 0 ∧ segment.endMs = 2 ∧
      t.journal.validateCommit t.live (t.handed 32 [segment] none) = .ok () := by
  obtain ⟨t, act, next, segment, hplay, htext, hstart, hend, hlocal⟩ :
      ∃ t act next segment, Lib.play (fun _ _ => none) (fun _ _ => true) again (replicate 14 .own)
          (loudSource (.ok [⟨0, 5, "hi"⟩]), thread) =
            some (t, .step (.commit 32 [segment]) act next) ∧
        segment.text = "hi" ∧ segment.startMs = 0 ∧ segment.endMs = 2 ∧
        t.cloud.isSome = false :=
    ⟨_, _, _, _, rfl, rfl, rfl, rfl, rfl⟩
  have hrun : Steps MovedElsewhere (Skippable _) again (loudSource (.ok [⟨0, 5, "hi"⟩]), thread)
      (t, .step (.commit 32 [segment]) act next) := by
    refine (Steps.play .refl hplay).mono (fun _ _ h => ?_) (fun name w _ => ?_)
    · obtain ⟨_, h⟩ := h
      cases h
    · cases name with
      | transcribe chunk => exact fun error h => (nomatch h)
      | _ => trivial
  exact ⟨t, act, next, segment, hplay, htext, hstart, hend,
    (local_work_passes (loudSetup_minting _) (loudSource_started _) .thread hrun hlocal).1 32
      [segment] rfl⟩

/-- The helper fails the utterance with a text of 300 two-byte letters: the reason of the gap
    has fewer than 500 characters and more than 512 bytes. -/
def letterError : SttError :=
  { SttError.new .server speechdProvider "the speech helper failed an utterance" with
    detail := some ("Engine: " ++ String.ofList (List.replicate 300 'é')) }

theorem utf8Len_replicate (letter : Char) (n : ℕ) :
    String.utf8Len (replicate n letter) = n * letter.utf8Size := by
  induction n with
  | zero => simp
  | succ n ih => rw [replicate_succ, String.utf8Len_cons, ih, Nat.succ_mul]

theorem letterError_long : 512 < (gapReason letterError).utf8ByteSize := by
  unfold gapReason letterError
  simp only [String.utf8ByteSize_ofList, String.toList_append, String.toList_ofList, SttError.new]
  -- the number stays a variable: the letters are counted, not listed
  generalize hn : 300 = n
  have hbytes := utf8Len_replicate 'é' n
  rw [take_of_length_le (by simp; omega)]
  simp only [String.utf8Len_append, hbytes, show 'é'.utf8Size = 2 from rfl]
  omega

theorem validateCommit_long (j : Journal) (audio : Reader) (commit : CommittedAudio)
    {reason : String} (hgap : commit.gap = some reason) (hlong : 512 < reason.utf8ByteSize) :
    j.validateCommit audio commit =
      .error (invalid "coverage must extend the current epoch contiguously") := by
  unfold validateCommit
  rw [hgap]
  simp [refuseIf, hlong]
  rfl

set_option maxRecDepth 20000 in
/-- The gap of a failed utterance is refused by the journal. -/
theorem gap_refused : (letterError.provider = speechdProvider ∧ letterError.retryable = true) ∧
    ∃ t act next,
      (loudSource (.error letterError)).play thread (List.replicate 12 .own) =
        some (t, .step (.skip 32 (gapReason letterError)) act next) ∧
      t.cloud.isSome = false ∧
      t.journal.validateCommit t.live (t.handed 32 [] (some (gapReason letterError))) =
        .error (invalid "coverage must extend the current epoch contiguously") :=
  ⟨⟨rfl, rfl⟩, _, _, _, rfl, rfl, validateCommit_long _ _ _ rfl letterError_long⟩

end FlyOnTheWall.Stream
