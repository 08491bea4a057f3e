/-
  `dedupe_meeting`: echo removal over the primary transcript of a stored meeting.

  The new version is made the primary one in one transaction and its segments are appended in
  another; a failure of the second leaves a transcript without segments in the place of the old
  one. Any other failure leaves the primary transcript as it was, whatever is dropped.
-/
import FlyOnTheWall.PostPass.Job

namespace FlyOnTheWall.PostPass

open Lib List

variable (l : Library)

def Library.primaryTranscript : Option Transcript := l.transcripts.find? (·.isPrimary)

def Library.withPrimary (t : Transcript) : Library :=
  { l with transcripts := l.transcripts.map (fun t => { t with isPrimary := false }) ++ [t] }

/-- `create_transcript` with `make_primary`. -/
def Library.createTranscript (id provider model : String) : Except String Library := do
  refuseIf (l.transcripts.any (·.id == id)) "UNIQUE constraint failed"
  return l.withPrimary ⟨id, provider, model, true, []⟩

def Library.appendSegments (id : String) (rows : List NewSegment) : Library :=
  { l with transcripts := l.transcripts.map fun t =>
      if t.id = id then { t with segments := t.segments ++ rows } else t }

structure DedupeReport where
  before : ℕ
  dropped : ℕ
  newTranscript : Option String

/-- The steps on the database; a transaction that fails is rolled back. -/
inductive DbStep
  | primary | load | exports | create | append
  deriving DecidableEq

/-- `dedupe` orders the segments and removes the echoes; it says how many it has dropped. -/
structure DedupeEnv where
  dedupe : List NewSegment → List NewSegment × ℕ
  fault : DbStep → Option String
  newId : String

def DedupeEnv.call (env : DedupeEnv) (step : DbStep) : Except String Unit :=
  match env.fault step with
  | some e => .error e
  | none => .ok ()

variable (env : DedupeEnv)

/-- Up to the creation of the new version, with the rows it is to have. -/
def prepareDedupe : Except String (DedupeReport × Option (Library × List NewSegment)) :=
  match env.fault .primary, l.primaryTranscript with
  | none, some old => do
    env.call .load
    let (kept, dropped) := env.dedupe old.segments
    if dropped = 0 then return (⟨old.segments.length, 0, none⟩, none)
    env.call .exports
    env.call .create
    let (provider, model) := match l.transcripts.find? (·.id = old.id) with
      | some t => (t.provider, t.model)
      | none => ("deepgram", "unknown")
    let created ← l.createTranscript env.newId provider model
    return (⟨old.segments.length, dropped, some env.newId⟩,
      some (created, kept.mapIdx fun i s => { s with idx := i }))
  | _, _ => return (⟨0, 0, none⟩, none)

def dedupeMeeting : Except String DedupeReport × Library :=
  match prepareDedupe l env with
  | .error e => (.error e, l)
  | .ok (report, none) => (.ok report, l)
  | .ok (report, some (created, rows)) =>
    match env.fault .append with
    | some e => (.error e, created)
    | none => (.ok report, created.appendSegments env.newId rows)

/-- The pass gets as far as to append segments. -/
def Appends : Prop :=
  env.fault .primary = none ∧ ∃ old, l.primaryTranscript = some old ∧ env.fault .load = none ∧
    (env.dedupe old.segments).2 ≠ 0 ∧ env.fault .exports = none ∧ env.fault .create = none ∧
    ∀ t ∈ l.transcripts, t.id ≠ env.newId

variable {l env} {created : Library}

theorem call_eq_ok {step : DbStep} : env.call step = .ok () ↔ env.fault step = none := by
  unfold DedupeEnv.call
  cases env.fault step <;> simp

theorem primaryTranscript_withPrimary (id provider model : String) (segments : List NewSegment) :
    (l.withPrimary ⟨id, provider, model, true, segments⟩).primaryTranscript =
      some ⟨id, provider, model, true, segments⟩ := by
  unfold Library.primaryTranscript Library.withPrimary
  rw [find?_append, find?_eq_none.mpr (by simp)]
  rfl

theorem createTranscript_eq_ok {id provider model : String} :
    l.createTranscript id provider model = .ok created ↔ (∀ t ∈ l.transcripts, t.id ≠ id) ∧
      l.withPrimary ⟨id, provider, model, true, []⟩ = created := by
  refine refuseIf_bind_ok.trans ?_
  simp [pure, Except.pure]

theorem prepareDedupe_creates {report : DedupeReport} {rows : List NewSegment}
    (h : prepareDedupe l env = .ok (report, some (created, rows))) :
    Appends l env ∧ created.primaryTranscript ≠ l.primaryTranscript := by
  unfold prepareDedupe at h
  split at h
  · next old hprimary hold =>
    obtain ⟨_, hload, h⟩ := bind_eq_ok.mp h
    dsimp only at h
    split at h
    · cases h
    rename_i hdrop
    obtain ⟨_, hexports, h⟩ := bind_eq_ok.mp h
    obtain ⟨_, hcreate, h⟩ := bind_eq_ok.mp h
    obtain ⟨_, hcreated, h⟩ := bind_eq_ok.mp h
    cases h
    obtain ⟨hfresh, rfl⟩ := createTranscript_eq_ok.mp hcreated
    refine ⟨⟨hprimary, old, hold, call_eq_ok.mp hload, hdrop, call_eq_ok.mp hexports,
      call_eq_ok.mp hcreate, hfresh⟩, fun hsame => ?_⟩
    rw [hold, primaryTranscript_withPrimary] at hsame
    exact hfresh old (mem_of_find?_eq_some hold)
      (congrArg Transcript.id (Option.some_inj.mp hsame)).symm
  · cases h

theorem Appends.prepare (h : Appends l env) : ∃ report created rows,
    prepareDedupe l env = .ok (report, some (created, rows)) := by
  obtain ⟨hprimary, old, hold, hload, hdrop, hexports, hcreate, hfresh⟩ := h
  unfold prepareDedupe
  rw [hprimary, hold]
  dsimp only
  rw [call_eq_ok.mpr hload, ok_bind, if_neg hdrop, call_eq_ok.mpr hexports, ok_bind,
    call_eq_ok.mpr hcreate, ok_bind, createTranscript_eq_ok.mpr ⟨hfresh, rfl⟩]
  exact ⟨_, _, _, rfl⟩

/-- A pass that returns an error leaves the primary transcript and its segments as they were,
    unless the segments could not be appended to the transcript already made primary. -/
theorem dedupe_error_keeps_primary_iff (l : Library) (env : DedupeEnv) :
    (∀ e, (dedupeMeeting l env).1 = .error e →
      (dedupeMeeting l env).2.primaryTranscript = l.primaryTranscript) ↔
    (env.fault .append = none ∨ ¬ Appends l env) := by
  unfold dedupeMeeting
  split
  · next e hprepare =>
    refine iff_of_true (fun _ _ => rfl) (.inr fun h => ?_)
    obtain ⟨_, _, _, h⟩ := h.prepare
    cases hprepare.symm.trans h
  · next report hprepare =>
    refine iff_of_true nofun (.inr fun h => ?_)
    obtain ⟨_, _, _, h⟩ := h.prepare
    cases hprepare.symm.trans h
  · next report created rows hprepare =>
    obtain ⟨happends, hne⟩ := prepareDedupe_creates hprepare
    split
    · next e happend =>
      refine iff_of_false (fun h => hne (h e rfl)) ?_
      simp [happend, happends]
    · next happend =>
      exact iff_of_true nofun (.inl happend)

/-- The echo is dropped and the row that is left cannot be appended: the meeting is without a
    word. -/
theorem dedupe_leaves_empty :
    let spoken : NewSegment := ⟨0, 0, 9, .system, none, "hello", true, none⟩
    let echo : NewSegment := { spoken with channel := .mic }
    let old : Transcript := ⟨"old", "deepgram", "nova", true, [spoken, echo]⟩
    let run := dedupeMeeting ⟨none, [], [old]⟩ ⟨fun segments => (segments.take 1, 1),
      fun step => if step = .append then some "disk full" else none, "new"⟩
    run.1 = .error "disk full" ∧
      run.2.primaryTranscript = some ⟨"new", "deepgram", "nova", true, []⟩ :=
  ⟨rfl, rfl⟩

end FlyOnTheWall.PostPass
