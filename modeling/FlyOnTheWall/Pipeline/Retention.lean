/-
  The retention sweeper (`fotw-pipeline/src/retention.rs`): what `plan_sweep` decides.

  The plan is a pure function of the clock, the library and the settings. It has two
  passes: everything whose retention window has elapsed goes (`policyPass`), and if what
  survives is still over budget the oldest evictable meetings go until it is not
  (`evictOldest`). Meetings kept forever and meetings with no transcript are never taken;
  when they alone hold the library over budget the plan warns.

  `planSweep_correct` is the whole contract: which meetings go, why no shorter budget pass
  would do, that the byte accounting is exact, and that planning again on the swept
  library evicts nothing. A `Library` has one entry per meeting id, as the `meetings` table
  the daemon reads it from does, and its audio fits in 64 bits of byte count. The sums and
  differences of the source are `u64` and wrap in a release build; the bound is what makes
  them exact.
-/
import Mathlib.Data.List.Sort
import Mathlib.Data.String.Basic
import FlyOnTheWall.Lib.U64

namespace FlyOnTheWall.Retention

open FlyOnTheWall.Lib List

def msPerDay : ℕ := 86400000

/-- What to do with one meeting's audio. -/
inductive RetentionPolicy where
  | default
  | forever
  | untilTranscribed
  | days (days : ℕ)
  deriving DecidableEq, Repr

def RetentionPolicy.isForever : RetentionPolicy → Bool
  | .forever => true
  | _ => false

inductive TranscriptState where
  | recording
  | transcribing
  | ready
  | failed
  deriving DecidableEq, Repr

def TranscriptState.isReady : TranscriptState → Bool
  | .ready => true
  | _ => false

/-- One meeting, as the sweeper sees it. -/
structure MeetingAudio where
  meetingId : String
  startedAtMs : ℕ
  state : TranscriptState
  transcriptReadyAtMs : Option ℕ
  policy : RetentionPolicy
  audioBytes : ℕ
  audioPaths : List String
  deriving DecidableEq, Repr

structure RetentionSettings where
  defaultDays : ℕ
  budgetBytes : ℕ
  deriving DecidableEq, Repr

namespace MeetingAudio

variable (m : MeetingAudio)

/-- The retention window of the meeting's own policy, in days; `forever` has none. -/
def windowDays (defaultDays : ℕ) : Option ℕ :=
  match m.policy with
  | .forever => none
  | .default => some defaultDays
  | .untilTranscribed => some 0
  | .days days => some days

/-- When the audio becomes deletable under its own policy. The arithmetic saturates. -/
def expiresAtMs (defaultDays : ℕ) : Option ℕ :=
  match m.transcriptReadyAtMs with
  | none => none
  | some ready =>
    if m.state.isReady then
      (m.windowDays defaultDays).map fun days =>
        saturatingAdd ready (saturatingMul days msPerDay)
    else none

/-- A transcript exists. `state = ready` alone does not say so. -/
def isTranscribed : Bool :=
  m.state.isReady && m.transcriptReadyAtMs.isSome

def isEvictable : Bool :=
  !m.policy.isForever && m.isTranscribed && decide (0 < m.audioBytes)

end MeetingAudio

inductive SweepReason where
  | policyAge (days : ℕ)
  | transcribed
  | overBudget
  deriving DecidableEq, Repr

structure Eviction where
  meetingId : String
  audioBytes : ℕ
  reason : SweepReason
  paths : List String
  deriving DecidableEq, Repr

inductive SweepWarning where
  | onlyForeverRemains (overByBytes foreverBytes : ℕ)
  | onlyUntranscribedRemains (overByBytes untranscribedBytes : ℕ)
  deriving DecidableEq, Repr

structure SweepPlan where
  evictions : List Eviction
  warnings : List SweepWarning
  audioBytesBefore : ℕ
  audioBytesAfter : ℕ
  budgetBytes : ℕ
  deriving DecidableEq, Repr

variable (plan : SweepPlan)

def SweepPlan.bytesReclaimed : ℕ :=
  u64Sum Eviction.audioBytes plan.evictions

/-! ## The planner -/

variable (settings : RetentionSettings)

def policyReason (m : MeetingAudio) : SweepReason :=
  match m.policy with
  | .untilTranscribed => .transcribed
  | .days days => .policyAge days
  | _ => .policyAge settings.defaultDays

/-- One iteration of the policy pass; `none` is `continue`. -/
def policyEviction (nowMs : ℕ) (settings : RetentionSettings) (m : MeetingAudio) :
    Option Eviction :=
  if m.audioBytes = 0 ∧ m.audioPaths = [] then none
  else
    match m.expiresAtMs settings.defaultDays with
    | none => none
    | some expires =>
      if nowMs < expires then none
      else some ⟨m.meetingId, m.audioBytes, policyReason settings m, m.audioPaths⟩

def policyPass (nowMs : ℕ) (meetings : List MeetingAudio) (settings : RetentionSettings) :
    List Eviction :=
  meetings.filterMap (policyEviction nowMs settings)

/-- Oldest first, ties broken by id. -/
def Older (a b : MeetingAudio) : Prop :=
  a.startedAtMs < b.startedAtMs ∨ a.startedAtMs = b.startedAtMs ∧ a.meetingId ≤ b.meetingId

instance : DecidableRel Older := fun a b => by unfold Older; infer_instance

/-- Evict for budget. -/
def overBudget (m : MeetingAudio) : Eviction :=
  ⟨m.meetingId, m.audioBytes, .overBudget, m.audioPaths⟩

/-- The budget loop: the bytes that remain and what was evicted. -/
def evictOldest (budgetBytes : ℕ) : ℕ → List MeetingAudio → ℕ × List Eviction
  | remaining, [] => (remaining, [])
  | remaining, m :: candidates =>
    if remaining ≤ budgetBytes then (remaining, [])
    else
      let rest := evictOldest budgetBytes (u64Sub remaining m.audioBytes) candidates
      (rest.1, overBudget m :: rest.2)

variable (expired : List String)

variable (meetings : List MeetingAudio)

/-- What the budget pass may take, oldest first. -/
def budgetCandidates : List MeetingAudio :=
  (meetings.filter fun m => !expired.contains m.meetingId && m.isEvictable).insertionSort Older

def budgetPass (remaining budget : ℕ) : ℕ × List Eviction :=
  if remaining > budget then evictOldest budget remaining (budgetCandidates expired meetings)
  else (remaining, [])

/-- The warnings of a library that is still over budget, naming which protected set holds
    the space. -/
def sweepWarnings (evictions : List Eviction)
    (meetings : List MeetingAudio) (remaining budget : ℕ) : List SweepWarning :=
  if remaining > budget then
    let survivors := (meetings.filter fun m => !expired.contains m.meetingId).filter
      fun m => !evictions.any fun e => e.meetingId == m.meetingId
    let foreverBytes := u64Sum MeetingAudio.audioBytes (survivors.filter (·.policy.isForever))
    let untranscribedBytes := u64Sum MeetingAudio.audioBytes
      (survivors.filter fun m => !m.policy.isForever && !m.isTranscribed)
    (if foreverBytes > 0 then [.onlyForeverRemains (remaining - budget) foreverBytes] else []) ++
    (if untranscribedBytes > 0 then
      [.onlyUntranscribedRemains (remaining - budget) untranscribedBytes] else [])
  else []

def planSweep (nowMs : ℕ) (meetings : List MeetingAudio) (settings : RetentionSettings) :
    SweepPlan :=
  let before := u64Sum MeetingAudio.audioBytes meetings
  let aged := policyPass nowMs meetings settings
  let expired := aged.map Eviction.meetingId
  let budget := budgetPass expired meetings (u64Sub before (u64Sum Eviction.audioBytes aged))
    settings.budgetBytes
  let evictions := aged ++ budget.2
  { evictions
    warnings := sweepWarnings expired evictions meetings budget.1 settings.budgetBytes
    audioBytesBefore := before
    audioBytesAfter := budget.1
    budgetBytes := settings.budgetBytes }

/-- A library: meetings with pairwise distinct ids, whose bytes can be counted. -/
structure Library where
  meetings : List MeetingAudio
  nodup_ids : (meetings.map MeetingAudio.meetingId).Nodup
  bytes_fit : weight MeetingAudio.audioBytes meetings ≤ u64Max

/-- The retention window has elapsed at `nowMs`. -/
def Expired (nowMs : ℕ) (settings : RetentionSettings) (m : MeetingAudio) : Prop :=
  ∃ expires, m.expiresAtMs settings.defaultDays = some expires ∧ expires ≤ nowMs

instance (nowMs : ℕ) (settings : RetentionSettings) :
    DecidablePred (Expired nowMs settings) := fun m =>
  match h : m.expiresAtMs settings.defaultDays with
  | none => isFalse (by rintro ⟨t, ht, _⟩; rw [h] at ht; cases ht)
  | some t =>
    if ht : t ≤ nowMs then isTrue ⟨t, h, ht⟩
    else isFalse (by rintro ⟨u, hu, hle⟩; rw [h] at hu; cases hu; exact ht hle)

/-! ## One meeting -/

variable {m : MeetingAudio}

open MeetingAudio

theorem isTranscribed_of_expiresAtMs {d t : ℕ} (h : m.expiresAtMs d = some t) :
    m.isTranscribed = true := by
  unfold expiresAtMs at h
  unfold isTranscribed
  cases hr : m.transcriptReadyAtMs with
  | none => simp [hr] at h
  | some ready =>
    cases hs : m.state.isReady with
    | false => simp [hr, hs] at h
    | true => rfl

theorem not_isForever_of_expiresAtMs {d t : ℕ} (h : m.expiresAtMs d = some t) :
    m.policy.isForever = false := by
  unfold expiresAtMs windowDays at h
  cases hp : m.policy with
  | forever => cases hr : m.transcriptReadyAtMs <;> simp [hr, hp] at h
  | default | untilTranscribed | days => rfl

section
variable (nowMs : ℕ) (settings : RetentionSettings) (m : MeetingAudio)

/-- What the policy pass takes: an expired meeting that still has something on disk. -/
theorem policyEviction_eq : policyEviction nowMs settings m =
      if Expired nowMs settings m ∧ ¬(m.audioBytes = 0 ∧ m.audioPaths = []) then
        some ⟨m.meetingId, m.audioBytes, policyReason settings m, m.audioPaths⟩
      else none := by
  unfold policyEviction
  by_cases hz : m.audioBytes = 0 ∧ m.audioPaths = []
  · simp [hz]
  · cases he : m.expiresAtMs settings.defaultDays with
    | none => simp [hz, Expired, he]
    | some t =>
      by_cases ht : t ≤ nowMs
      · simp [hz, Expired, he, ht, not_lt.mpr ht]
      · simp [hz, Expired, he, ht, not_le.mp ht]

/-- The policy pass takes `m`. -/
def Due : Prop :=
  Expired nowMs settings m ∧ ¬(m.audioBytes = 0 ∧ m.audioPaths = [])

end

instance (nowMs : ℕ) (settings : RetentionSettings) : DecidablePred (Due nowMs settings) :=
  fun _ => inferInstanceAs (Decidable (_ ∧ _))

theorem due_iff_expired {nowMs : ℕ} {settings : RetentionSettings} (h : 0 < m.audioBytes) :
    Due nowMs settings m ↔ Expired nowMs settings m := by
  constructor
  · exact fun hd => hd.1
  · exact fun he => ⟨he, fun hz => by omega⟩

/-- The eviction the policy pass makes of a due meeting. -/
def aged (m : MeetingAudio) : Eviction :=
  ⟨m.meetingId, m.audioBytes, policyReason settings m, m.audioPaths⟩

theorem policyPass_eq (nowMs : ℕ) (meetings : List MeetingAudio) (settings : RetentionSettings) :
    policyPass nowMs meetings settings =
      (meetings.filter fun m => decide (Due nowMs settings m)).map (aged settings) := by
  unfold policyPass
  induction meetings with
  | nil => rfl
  | cons m ms ih =>
    by_cases hd : Due nowMs settings m
    · rw [filterMap_cons_some (by rw [policyEviction_eq]; exact if_pos hd), ih,
        filter_cons_of_pos (by simpa using hd)]
      rfl
    · rw [filterMap_cons_none (by rw [policyEviction_eq]; exact if_neg hd), ih,
        filter_cons_of_neg (by simpa using hd)]

variable (ms : List MeetingAudio)

theorem weight_map_aged :
    weight Eviction.audioBytes (ms.map (aged settings)) = weight audioBytes ms := by
  simp [weight, aged, Function.comp_def]

theorem weight_map_overBudget :
    weight Eviction.audioBytes (ms.map overBudget) = weight audioBytes ms := by
  simp [weight, overBudget, Function.comp_def]

/-- The budget loop is `shed` on the candidates, which are part of what remains. -/
theorem evictOldest_eq (budget remaining : ℕ) (ms : List MeetingAudio)
    (hms : weight audioBytes ms ≤ remaining) :
    evictOldest budget remaining ms =
      (remaining - weight audioBytes (shed audioBytes budget remaining ms),
       (shed audioBytes budget remaining ms).map overBudget) := by
  induction ms generalizing remaining with
  | nil => simp [evictOldest, shed]
  | cons m ms ih =>
    by_cases h : remaining ≤ budget
    · simp [evictOldest, shed_of_le _ _ h, h]
    · rw [weight_cons] at hms
      rw [shed_cons_of_lt _ _ (Nat.not_le.mp h)]
      simp only [evictOldest, if_neg h, u64Sub_eq (Nat.le_of_add_right_le hms)]
      rw [ih _ (by omega)]
      simp only [weight_cons, map_cons, Nat.sub_sub]

theorem budgetPass_eq (remaining budget : ℕ)
    (hms : weight audioBytes (budgetCandidates expired ms) ≤ remaining) :
    budgetPass expired ms remaining budget =
      (remaining - weight audioBytes
        (shed audioBytes budget remaining (budgetCandidates expired ms)),
       (shed audioBytes budget remaining (budgetCandidates expired ms)).map overBudget) := by
  unfold budgetPass
  by_cases h : remaining > budget
  · rw [if_pos h, evictOldest_eq _ _ _ hms]
  · rw [if_neg h, shed_of_le _ _ (not_lt.mp h)]
    rfl

/-! ## A whole library -/

section Plan

variable (nowMs : ℕ) (lib : Library) (settings : RetentionSettings)

theorem Library.eq_of_id {a b : MeetingAudio} (ha : a ∈ lib.meetings) (hb : b ∈ lib.meetings)
    (h : a.meetingId = b.meetingId) : a = b := inj_on_of_nodup_map lib.nodup_ids ha hb h

theorem Library.nodup : lib.meetings.Nodup := lib.nodup_ids.of_map _

/-- The meetings the policy pass takes. -/
def dueMeetings : List MeetingAudio :=
  lib.meetings.filter fun m => decide (Due nowMs settings m)

/-- The meetings the budget pass may take, oldest first. -/
def oldestFirst : List MeetingAudio :=
  (lib.meetings.filter fun m => !decide (Due nowMs settings m) && m.isEvictable).insertionSort
    Older

/-- The bytes left by the policy pass. -/
def bytesAfterPolicy : ℕ :=
  weight MeetingAudio.audioBytes (lib.meetings.filter fun m => !decide (Due nowMs settings m))

/-- The meetings the budget pass takes. -/
def shedMeetings : List MeetingAudio :=
  shed MeetingAudio.audioBytes settings.budgetBytes (bytesAfterPolicy nowMs lib settings)
    (oldestFirst nowMs lib settings)

/-- Everything the plan takes. -/
def takenMeetings : List MeetingAudio :=
  dueMeetings nowMs lib settings ++ shedMeetings nowMs lib settings

variable {nowMs} {lib} {settings}

theorem policyPass_contains (hm : m ∈ lib.meetings) :
    ((policyPass nowMs lib.meetings settings).map Eviction.meetingId).contains m.meetingId =
      decide (Due nowMs settings m) := by
  rw [policyPass_eq, map_map, Bool.eq_iff_iff, contains_iff_mem, decide_eq_true_iff, mem_map]
  constructor
  · rintro ⟨a, ha, hid⟩
    obtain ⟨hmem, hdue⟩ := mem_filter.mp ha
    rw [← lib.eq_of_id hmem hm hid]
    simpa using hdue
  · intro hdue
    exact ⟨m, mem_filter.mpr ⟨hm, by simpa using hdue⟩, rfl⟩

theorem budgetCandidates_eq :
    budgetCandidates ((policyPass nowMs lib.meetings settings).map Eviction.meetingId)
      lib.meetings = oldestFirst nowMs lib settings := by
  unfold budgetCandidates oldestFirst
  congr 1
  refine filter_congr fun m hm => ?_
  rw [policyPass_contains hm]

theorem bytesAfterPolicy_add : weight audioBytes (dueMeetings nowMs lib settings) +
      bytesAfterPolicy nowMs lib settings = weight audioBytes lib.meetings :=
  weight_filter_add audioBytes (fun m => decide (Due nowMs settings m)) lib.meetings

/-- No sum wraps: the policy pass leaves exactly the bytes of the meetings it does not take. -/
theorem before_sub_policy : u64Sub (u64Sum audioBytes lib.meetings)
      (u64Sum Eviction.audioBytes (policyPass nowMs lib.meetings settings)) =
      bytesAfterPolicy nowMs lib settings := by
  have hadd := @bytesAfterPolicy_add nowMs lib settings
  have hfit := lib.bytes_fit
  have haged : weight Eviction.audioBytes (policyPass nowMs lib.meetings settings) =
      weight audioBytes (dueMeetings nowMs lib settings) := by
    rw [policyPass_eq, weight_map_aged]
    rfl
  rw [u64Sum_eq hfit, u64Sum_eq (by omega), haged, u64Sub_eq (by omega)]
  omega

theorem oldestFirst_weight_le : weight audioBytes (oldestFirst nowMs lib settings) ≤
      bytesAfterPolicy nowMs lib settings := by
  unfold oldestFirst bytesAfterPolicy
  rw [weight_perm _ (perm_insertionSort _ _)]
  have h := weight_filter_le audioBytes isEvictable
    (lib.meetings.filter fun m => !decide (Due nowMs settings m))
  rw [filter_filter] at h
  refine le_trans (le_of_eq ?_) h
  exact congrArg _ (filter_congr fun m _ => Bool.and_comm _ _)

theorem planSweep_budgetPass :
    budgetPass ((policyPass nowMs lib.meetings settings).map Eviction.meetingId) lib.meetings
      (u64Sub (u64Sum audioBytes lib.meetings)
        (u64Sum Eviction.audioBytes (policyPass nowMs lib.meetings settings)))
      settings.budgetBytes =
      (bytesAfterPolicy nowMs lib settings - weight audioBytes (shedMeetings nowMs lib settings),
       (shedMeetings nowMs lib settings).map overBudget) := by
  rw [before_sub_policy, budgetPass_eq _ _ _ _
    (by rw [budgetCandidates_eq]; exact oldestFirst_weight_le),
    budgetCandidates_eq]
  rfl

theorem planSweep_evictions : (planSweep nowMs lib.meetings settings).evictions =
      (dueMeetings nowMs lib settings).map (aged settings) ++
        (shedMeetings nowMs lib settings).map overBudget := by
  simp only [planSweep]
  rw [planSweep_budgetPass, policyPass_eq, dueMeetings]

theorem planSweep_after : (planSweep nowMs lib.meetings settings).audioBytesAfter =
      bytesAfterPolicy nowMs lib settings -
        weight audioBytes (shedMeetings nowMs lib settings) := by
  simp only [planSweep]
  rw [planSweep_budgetPass]

theorem evictions_ids : (planSweep nowMs lib.meetings settings).evictions.map Eviction.meetingId =
      (takenMeetings nowMs lib settings).map meetingId := by
  rw [planSweep_evictions, takenMeetings]
  simp [aged, overBudget, Function.comp_def]

/-! ### What is taken -/

theorem mem_dueMeetings :
    m ∈ dueMeetings nowMs lib settings ↔ m ∈ lib.meetings ∧ Due nowMs settings m := by
  simp [dueMeetings]

theorem mem_oldestFirst : m ∈ oldestFirst nowMs lib settings ↔
      m ∈ lib.meetings ∧ ¬Due nowMs settings m ∧ m.isEvictable = true := by
  simp [oldestFirst]

theorem mem_of_mem_shed (h : m ∈ shedMeetings nowMs lib settings) :
    m ∈ oldestFirst nowMs lib settings := (shed_isPrefix _ _ _ _).subset h

theorem mem_takenMeetings_mem (h : m ∈ takenMeetings nowMs lib settings) : m ∈ lib.meetings := by
  rcases mem_append.mp h with h | h
  · exact (mem_dueMeetings.mp h).1
  · exact (mem_oldestFirst.mp (mem_of_mem_shed h)).1

theorem oldestFirst_nodup : (oldestFirst nowMs lib settings).Nodup :=
  (perm_insertionSort _ _).nodup_iff.mpr (lib.nodup.filter _)

theorem takenMeetings_nodup : (takenMeetings nowMs lib settings).Nodup := by
  refine nodup_append'.mpr ⟨lib.nodup.filter _,
    oldestFirst_nodup.sublist (shed_isPrefix _ _ _ _).sublist, ?_⟩
  intro m hd hs
  have h1 := (mem_dueMeetings.mp hd).2
  have h2 := mem_oldestFirst.mp (mem_of_mem_shed hs)
  exact h2.2.1 h1

theorem mem_taken_ids (hm : m ∈ lib.meetings) :
    m.meetingId ∈ (planSweep nowMs lib.meetings settings).evictions.map Eviction.meetingId ↔
      m ∈ takenMeetings nowMs lib settings := by
  rw [evictions_ids, mem_map]
  constructor
  · rintro ⟨a, ha, hid⟩
    rw [← lib.eq_of_id (mem_takenMeetings_mem ha) hm hid]
    exact ha
  · exact fun h => ⟨m, h, rfl⟩

/-- A taken meeting has a transcript and is not kept forever. -/
theorem taken_protected (h : m ∈ takenMeetings nowMs lib settings) :
    m.policy.isForever = false ∧ m.isTranscribed = true := by
  rcases mem_append.mp h with h | h
  · obtain ⟨-, ⟨t, ht, -⟩, -⟩ := mem_dueMeetings.mp h
    exact ⟨not_isForever_of_expiresAtMs ht, isTranscribed_of_expiresAtMs ht⟩
  · obtain ⟨-, -, he⟩ :=
      mem_oldestFirst.mp (mem_of_mem_shed h)
    simp only [isEvictable, Bool.and_eq_true, Bool.not_eq_true'] at he
    exact he.1

/-! ### The order of the budget pass -/

instance : Std.Total Older where
  total a b := by
    rcases Nat.lt_trichotomy a.startedAtMs b.startedAtMs with h | h | h
    · exact Or.inl (Or.inl h)
    · rcases le_total a.meetingId b.meetingId with hi | hi
      · exact Or.inl (Or.inr ⟨h, hi⟩)
      · exact Or.inr (Or.inr ⟨h.symm, hi⟩)
    · exact Or.inr (Or.inl h)

instance : IsTrans MeetingAudio Older where
  trans a b c hab hbc := by
    rcases hab with h1 | ⟨h1, i1⟩ <;> rcases hbc with h2 | ⟨h2, i2⟩
    · exact Or.inl (h1.trans h2)
    · exact Or.inl (h2 ▸ h1)
    · exact Or.inl (h1 ▸ h2)
    · exact Or.inr ⟨h1.trans h2, i1.trans i2⟩

/-- `a` started before `b`, or at the same time with the smaller id. -/
def Before (a b : MeetingAudio) : Prop :=
  a.startedAtMs < b.startedAtMs ∨ a.startedAtMs = b.startedAtMs ∧ a.meetingId < b.meetingId

theorem oldestFirst_before : (oldestFirst nowMs lib settings).Pairwise Before := by
  have hs : (oldestFirst nowMs lib settings).Pairwise Older := pairwise_insertionSort _ _
  refine (hs.and oldestFirst_nodup).imp_of_mem ?_
  intro a b ha hb ⟨hab, hne⟩
  rcases hab with h | ⟨h, hi⟩
  · exact .inl h
  · refine .inr ⟨h, lt_of_le_of_ne hi fun hid => hne ?_⟩
    exact lib.eq_of_id (mem_oldestFirst.mp ha).1
      (mem_oldestFirst.mp hb).1 hid

theorem oldestFirst_perm : (oldestFirst nowMs lib settings).Perm
      (lib.meetings.filter fun m => m.isEvictable && !decide (Expired nowMs settings m)) := by
  refine (perm_insertionSort _ _).trans (Perm.of_eq (filter_congr fun m _ => ?_))
  cases he : m.isEvictable with
  | false => simp
  | true =>
    have hb : 0 < m.audioBytes := by
      simp only [isEvictable, Bool.and_eq_true, decide_eq_true_iff] at he
      exact he.2
    simp [due_iff_expired hb]

theorem bytesAfterPolicy_eq : bytesAfterPolicy nowMs lib settings = weight audioBytes
        (lib.meetings.filter fun m => !decide (Expired nowMs settings m)) := by
  refine weight_filter_congr _ fun m _ => ?_
  rcases eq_zero_or_pos m.audioBytes with h | h
  · exact .inl h
  · exact .inr (by simp [due_iff_expired h])

/-! ### Byte accounting -/

theorem shed_weight_le : weight audioBytes (shedMeetings nowMs lib settings) ≤
      bytesAfterPolicy nowMs lib settings :=
  (weight_prefix_le _ (shed_isPrefix _ _ _ _)).trans oldestFirst_weight_le

theorem weight_evictions :
    weight Eviction.audioBytes (planSweep nowMs lib.meetings settings).evictions =
      weight audioBytes (takenMeetings nowMs lib settings) := by
  unfold takenMeetings
  rw [planSweep_evictions, weight_append, weight_append, weight_map_aged, weight_map_overBudget]

/-- Nothing is lost or counted twice. -/
theorem after_add_taken : (planSweep nowMs lib.meetings settings).audioBytesAfter +
      weight audioBytes (takenMeetings nowMs lib settings) =
      weight audioBytes lib.meetings := by
  have h1 := @bytesAfterPolicy_add nowMs lib settings
  have h2 := @shed_weight_le nowMs lib settings
  rw [planSweep_after, takenMeetings, weight_append]
  omega

theorem bytesReclaimed_eq : (planSweep nowMs lib.meetings settings).bytesReclaimed =
      weight audioBytes (takenMeetings nowMs lib settings) := by
  have h := @after_add_taken nowMs lib settings
  have hfit := lib.bytes_fit
  unfold SweepPlan.bytesReclaimed
  rw [u64Sum_eq (by rw [weight_evictions]; omega), weight_evictions]

variable (nowMs lib settings) in
/-- The meetings the plan leaves alone. -/
def survivors : List MeetingAudio :=
  lib.meetings.filter fun m => !decide (m ∈ takenMeetings nowMs lib settings)

theorem weight_survivors : weight audioBytes (survivors nowMs lib settings) =
      (planSweep nowMs lib.meetings settings).audioBytesAfter := by
  have h1 := weight_filter_add audioBytes
    (fun m => decide (m ∈ takenMeetings nowMs lib settings)) lib.meetings
  have h2 := @after_add_taken nowMs lib settings
  have hp : (lib.meetings.filter fun m => decide (m ∈ takenMeetings nowMs lib settings)).Perm
      (takenMeetings nowMs lib settings) := by
    refine (perm_ext_iff_of_nodup (lib.nodup.filter _) takenMeetings_nodup).mpr fun m => ?_
    simp only [mem_filter, decide_eq_true_iff]
    exact ⟨fun h => h.2, fun h => ⟨mem_takenMeetings_mem h, h⟩⟩
  rw [weight_perm _ hp] at h1
  unfold survivors
  omega

/-! ### Still over budget -/

section
variable (h : settings.budgetBytes < (planSweep nowMs lib.meetings settings).audioBytesAfter)
include h

theorem shed_all_of_over : shedMeetings nowMs lib settings = oldestFirst nowMs lib settings := by
  rw [planSweep_after] at h
  exact shed_eq_self_of_over _ _ _ _ h

theorem evictable_taken_of_over (hm : m ∈ lib.meetings) (he : m.isEvictable = true) :
    m ∈ takenMeetings nowMs lib settings := by
  by_cases hd : Due nowMs settings m
  · exact mem_append_left _ (mem_dueMeetings.mpr ⟨hm, hd⟩)
  · refine mem_append_right _ ?_
    rw [shed_all_of_over h]
    exact mem_oldestFirst.mpr ⟨hm, hd, he⟩

end

theorem warning_survivors_eq : ((lib.meetings.filter fun m =>
        !((policyPass nowMs lib.meetings settings).map Eviction.meetingId).contains
          m.meetingId).filter fun m =>
      !(planSweep nowMs lib.meetings settings).evictions.any fun e =>
        e.meetingId == m.meetingId) = survivors nowMs lib settings := by
  rw [filter_filter]
  refine filter_congr fun m hm => ?_
  have hany : ((planSweep nowMs lib.meetings settings).evictions.any fun e =>
      e.meetingId == m.meetingId) = decide (m ∈ takenMeetings nowMs lib settings) := by
    rw [Bool.eq_iff_iff, decide_eq_true_iff, ← mem_taken_ids hm]
    simp [any_eq_true]
  rw [policyPass_contains hm, hany]
  by_cases hd : Due nowMs settings m
  · have ht : m ∈ takenMeetings nowMs lib settings :=
      mem_append_left _ (mem_dueMeetings.mpr ⟨hm, hd⟩)
    simp [hd, ht]
  · simp [hd]

end Plan

/-- How far over the budget a warning says the library still is. -/
def SweepWarning.overByBytes : SweepWarning → ℕ
  | .onlyForeverRemains excess _ => excess
  | .onlyUntranscribedRemains excess _ => excess

/-- The bytes a warning accounts for. -/
def SweepWarning.heldBytes : SweepWarning → ℕ
  | .onlyForeverRemains _ held => held
  | .onlyUntranscribedRemains _ held => held

/-- The library after a plan was carried out: an evicted meeting keeps its row and has no
    audio left. -/
def SweepPlan.sweep (m : MeetingAudio) : MeetingAudio :=
  if m.meetingId ∈ plan.evictions.map Eviction.meetingId then
    { m with audioBytes := 0, audioPaths := [] }
  else m

theorem sweep_meetingId (m : MeetingAudio) : (plan.sweep m).meetingId = m.meetingId := by
  unfold SweepPlan.sweep
  split <;> rfl

theorem weight_map_sweep_le : weight audioBytes (ms.map plan.sweep) ≤ weight audioBytes ms := by
  induction ms with
  | nil => exact le_rfl
  | cons m ms ih =>
    have hm : (plan.sweep m).audioBytes ≤ m.audioBytes := by
      unfold SweepPlan.sweep
      split
      · exact Nat.zero_le _
      · exact le_rfl
    rw [map_cons, weight_cons, weight_cons]
    omega

def Library.sweep (lib : Library) (plan : SweepPlan) : Library where
  meetings := lib.meetings.map plan.sweep
  nodup_ids := by
    have h : MeetingAudio.meetingId ∘ plan.sweep = MeetingAudio.meetingId :=
      funext (sweep_meetingId plan)
    rw [List.map_map, h]
    exact lib.nodup_ids
  bytes_fit := (weight_map_sweep_le plan lib.meetings).trans lib.bytes_fit

section Sweep

variable {nowMs : ℕ} {lib : Library} {settings : RetentionSettings}

theorem planSweep_warnings : (planSweep nowMs lib.meetings settings).warnings =
      sweepWarnings ((policyPass nowMs lib.meetings settings).map Eviction.meetingId)
        (planSweep nowMs lib.meetings settings).evictions lib.meetings
        (planSweep nowMs lib.meetings settings).audioBytesAfter settings.budgetBytes := by
  simp only [planSweep]

section
variable (h : settings.budgetBytes < (planSweep nowMs lib.meetings settings).audioBytesAfter)
include h

/-- Over budget, what survives is kept forever, not transcribed, or has no bytes. -/
theorem survivors_split : weight audioBytes
        ((survivors nowMs lib settings).filter (·.policy.isForever)) +
      weight audioBytes ((survivors nowMs lib settings).filter fun m =>
        !m.policy.isForever && !m.isTranscribed) =
      (planSweep nowMs lib.meetings settings).audioBytesAfter := by
  rw [← weight_survivors, ← weight_filter_add audioBytes (·.policy.isForever)
      (survivors nowMs lib settings)]
  congr 1
  refine weight_filter_congr _ fun m hm => ?_
  obtain ⟨hmem, hnot⟩ := mem_filter.mp hm
  rcases eq_zero_or_pos m.audioBytes with h0 | hpos
  · exact .inl h0
  · right
    cases hf : m.policy.isForever with
    | true => rfl
    | false =>
      cases ht : m.isTranscribed with
      | false => rfl
      | true =>
        have he : m.isEvictable = true := by simp [isEvictable, hf, ht, hpos]
        have := evictable_taken_of_over h hmem he
        simp [this] at hnot

theorem warnings_of_over :
    ((planSweep nowMs lib.meetings settings).warnings.map SweepWarning.heldBytes).sum =
        (planSweep nowMs lib.meetings settings).audioBytesAfter ∧
      ∀ warning ∈ (planSweep nowMs lib.meetings settings).warnings,
        warning.overByBytes =
          (planSweep nowMs lib.meetings settings).audioBytesAfter - settings.budgetBytes := by
  have hsum := survivors_split h
  have hall := @after_add_taken nowMs lib settings
  have hfit := lib.bytes_fit
  rw [planSweep_warnings]
  unfold sweepWarnings
  rw [if_pos h, warning_survivors_eq]
  dsimp only
  rw [u64Sum_eq (by omega), u64Sum_eq (by omega)]
  refine ⟨?_, ?_⟩
  · split <;> split <;> simp [SweepWarning.heldBytes] <;> omega
  · intro warning hw
    rcases mem_append.mp hw with hw | hw <;>
    · split at hw
      · rw [mem_singleton.mp hw]
        rfl
      · cases hw

end

/-! ## Planning again -/

theorem not_due_sweep (hm : m ∈ lib.meetings) :
    ¬Due nowMs settings ((planSweep nowMs lib.meetings settings).sweep m) := by
  unfold SweepPlan.sweep
  split
  · exact fun hd => hd.2 ⟨rfl, rfl⟩
  · next hnot =>
    intro hd
    refine hnot ((mem_taken_ids hm).mpr ?_)
    exact mem_append_left _ (mem_dueMeetings.mpr ⟨hm, hd⟩)

theorem dueMeetings_sweep :
    dueMeetings nowMs (lib.sweep (planSweep nowMs lib.meetings settings)) settings = [] := by
  refine filter_eq_nil_iff.mpr fun m hm => ?_
  obtain ⟨a, ha, rfl⟩ := mem_map.mp hm
  simpa using not_due_sweep ha

theorem bytesAfterPolicy_sweep :
    bytesAfterPolicy nowMs (lib.sweep (planSweep nowMs lib.meetings settings)) settings =
      (planSweep nowMs lib.meetings settings).audioBytesAfter := by
  rw [← weight_survivors]
  unfold bytesAfterPolicy survivors Library.sweep
  rw [filter_eq_self.mpr (by
    intro m hm
    obtain ⟨a, ha, rfl⟩ := mem_map.mp hm
    simpa using not_due_sweep ha)]
  -- an evicted meeting weighs nothing after the sweep, a survivor what it did
  have key : ∀ ms : List MeetingAudio, ms ⊆ lib.meetings →
      weight audioBytes (ms.map (planSweep nowMs lib.meetings settings).sweep) =
        weight audioBytes
          (ms.filter fun m => !decide (m ∈ takenMeetings nowMs lib settings)) := by
    intro ms
    induction ms with
    | nil => intro _; rfl
    | cons m ms ih =>
      intro hsub
      have hm : m ∈ lib.meetings := hsub mem_cons_self
      have hrest := ih fun x hx => hsub (mem_cons_of_mem _ hx)
      have hiff := @mem_taken_ids m nowMs lib settings hm
      by_cases ht : m ∈ takenMeetings nowMs lib settings
      · simp [SweepPlan.sweep, hiff.mpr ht, ht, hrest]
      · have hn := fun hid => ht (hiff.mp hid)
        simp only [map_cons, weight_cons, hrest, SweepPlan.sweep, if_neg hn]
        simp [ht]
  exact key lib.meetings (Subset.refl _)

theorem oldestFirst_sweep
    (h : settings.budgetBytes < (planSweep nowMs lib.meetings settings).audioBytesAfter) :
    oldestFirst nowMs (lib.sweep (planSweep nowMs lib.meetings settings)) settings = [] := by
  refine eq_nil_iff_forall_not_mem.mpr fun m hm => ?_
  obtain ⟨hmem, -, he⟩ := mem_oldestFirst.mp hm
  obtain ⟨a, ha, rfl⟩ := mem_map.mp hmem
  unfold SweepPlan.sweep at he
  split at he
  · simp [isEvictable] at he
  · next hnot =>
    exact hnot ((mem_taken_ids ha).mpr (evictable_taken_of_over h ha he))

theorem replan_evictions :
    (planSweep nowMs (lib.sweep (planSweep nowMs lib.meetings settings)).meetings
      settings).evictions = [] := by
  rw [planSweep_evictions, dueMeetings_sweep, shedMeetings, bytesAfterPolicy_sweep]
  by_cases h : settings.budgetBytes < (planSweep nowMs lib.meetings settings).audioBytesAfter
  · rw [oldestFirst_sweep h]
    rfl
  · rw [shed_of_le _ _ (not_lt.mp h)]
    rfl

end Sweep

/-! ## The contract of the planner -/

section
variable (nowMs : ℕ) (lib : Library) (settings : RetentionSettings)

/-- What a plan for `lib` at `nowMs` has to be. -/
structure SweepCorrect (plan : SweepPlan) : Prop where
  /-- Each meeting goes at most once, and only meetings of the library go. -/
  once : (plan.evictions.map Eviction.meetingId).Nodup
  fromLibrary : ∀ e ∈ plan.evictions, ∃ m ∈ lib.meetings,
    e.meetingId = m.meetingId ∧ e.audioBytes = m.audioBytes ∧ e.paths = m.audioPaths
  /-- Never one kept forever, never one without a transcript. -/
  protects : ∀ m ∈ lib.meetings, m.policy.isForever = true ∨ m.isTranscribed = false →
    m.meetingId ∉ plan.evictions.map Eviction.meetingId
  /-- Every expired evictable one. -/
  expired : ∀ m ∈ lib.meetings, m.isEvictable = true → Expired nowMs settings m →
    m.meetingId ∈ plan.evictions.map Eviction.meetingId
  /-- The budget evictions are the first `k` of the other evictable meetings in order of
      (start, id): fewer would not be enough, and `k` are enough or are all of them. -/
  shortest : ∃ order : List MeetingAudio, ∃ k ≤ order.length,
    order.Perm (lib.meetings.filter fun m =>
      m.isEvictable && !decide (Expired nowMs settings m)) ∧
    order.Pairwise Before ∧
    (plan.evictions.filter fun e => e.reason == .overBudget) = (order.take k).map overBudget ∧
    (∀ j < k, settings.budgetBytes <
      weight MeetingAudio.audioBytes
        (lib.meetings.filter fun m => !decide (Expired nowMs settings m)) -
      weight MeetingAudio.audioBytes (order.take j)) ∧
    (weight MeetingAudio.audioBytes
        (lib.meetings.filter fun m => !decide (Expired nowMs settings m)) -
      weight MeetingAudio.audioBytes (order.take k) ≤ settings.budgetBytes ∨ k = order.length)
  before : plan.audioBytesBefore = weight MeetingAudio.audioBytes lib.meetings
  /-- The bytes after are the bytes before less those of the evicted meetings. -/
  after : plan.audioBytesAfter + weight Eviction.audioBytes plan.evictions =
    plan.audioBytesBefore
  reclaimed : plan.bytesReclaimed = weight Eviction.audioBytes plan.evictions
  /-- Still over budget: everything evictable went, and the warnings account for every
      remaining byte. -/
  above : settings.budgetBytes < plan.audioBytesAfter →
    (∀ m ∈ lib.meetings, m.isEvictable = true →
      m.meetingId ∈ plan.evictions.map Eviction.meetingId) ∧
    plan.warnings ≠ [] ∧
    (plan.warnings.map SweepWarning.heldBytes).sum = plan.audioBytesAfter ∧
    ∀ warning ∈ plan.warnings,
      warning.overByBytes = plan.audioBytesAfter - settings.budgetBytes
  /-- Planning again on the swept library at the same clock evicts nothing. -/
  idempotent : (planSweep nowMs (lib.sweep plan).meetings settings).evictions = []

theorem filter_overBudget : ((planSweep nowMs lib.meetings settings).evictions.filter fun e =>
      e.reason == .overBudget) = (shedMeetings nowMs lib settings).map overBudget := by
  have hage : ∀ m : MeetingAudio, (policyReason settings m == .overBudget) = false := by
    intro m
    unfold policyReason
    split <;> rfl
  rw [planSweep_evictions, filter_append, filter_eq_nil_iff.mpr (by
      intro e he
      obtain ⟨m, -, rfl⟩ := mem_map.mp he
      simp only [aged, hage m, Bool.false_eq_true, not_false_eq_true]),
    filter_eq_self.mpr (by
      intro e he
      obtain ⟨m, -, rfl⟩ := mem_map.mp he
      rfl), nil_append]

end

theorem planSweep_correct (nowMs : ℕ) (lib : Library) (settings : RetentionSettings) :
    SweepCorrect nowMs lib settings (planSweep nowMs lib.meetings settings) where
  once := by
    rw [evictions_ids]
    refine Nodup.map_on (fun a ha b hb hid => ?_) takenMeetings_nodup
    exact lib.eq_of_id (mem_takenMeetings_mem ha)
      (mem_takenMeetings_mem hb) hid
  fromLibrary := by
    intro e he
    rw [planSweep_evictions] at he
    rcases mem_append.mp he with he | he
    · obtain ⟨m, hm, rfl⟩ := mem_map.mp he
      exact ⟨m, (mem_dueMeetings.mp hm).1, rfl, rfl, rfl⟩
    · obtain ⟨m, hm, rfl⟩ := mem_map.mp he
      exact ⟨m, mem_takenMeetings_mem (mem_append_right _ hm), rfl, rfl, rfl⟩
  protects := by
    intro m hm hp hid
    obtain ⟨hf, ht⟩ := taken_protected ((mem_taken_ids hm).mp hid)
    rcases hp with hp | hp
    · rw [hf] at hp
      cases hp
    · rw [ht] at hp
      cases hp
  expired := by
    intro m hm he hx
    have hb : 0 < m.audioBytes := by
      simp only [isEvictable, Bool.and_eq_true, decide_eq_true_iff] at he
      exact he.2
    refine (mem_taken_ids hm).mpr (mem_append_left _ ?_)
    exact mem_dueMeetings.mpr ⟨hm, (due_iff_expired hb).mpr hx⟩
  shortest := by
    have hpre : shedMeetings nowMs lib settings <+: oldestFirst nowMs lib settings :=
      shed_isPrefix _ _ _ _
    have htake := prefix_iff_eq_take.mp hpre
    refine ⟨oldestFirst nowMs lib settings, (shedMeetings nowMs lib settings).length,
      hpre.length_le, oldestFirst_perm, oldestFirst_before,
      ?_, ?_, ?_⟩
    · rw [filter_overBudget, ← htake]
    · intro j hj
      rw [← bytesAfterPolicy_eq]
      exact shed_minimal _ _ _ _ _ hj
    · rw [← bytesAfterPolicy_eq, ← htake]
      rcases shed_enough audioBytes settings.budgetBytes
        (bytesAfterPolicy nowMs lib settings) (oldestFirst nowMs lib settings) with h | h
      · exact .inl h
      · exact .inr (congrArg length h)
  before := u64Sum_eq lib.bytes_fit
  after := by
    rw [weight_evictions, after_add_taken]
    exact (u64Sum_eq lib.bytes_fit).symm
  reclaimed := by rw [bytesReclaimed_eq, weight_evictions]
  above := by
    intro h
    obtain ⟨hsum, hover⟩ := warnings_of_over h
    refine ⟨fun m hm he => (mem_taken_ids hm).mpr
      (evictable_taken_of_over h hm he), ?_, hsum, hover⟩
    intro hnil
    rw [hnil] at hsum
    simp only [map_nil, sum_nil] at hsum
    omega
  idempotent := replan_evictions

/-- A meeting that is due, one that is old and one without a transcript. -/
def threeMeetings : Library where
  meetings := [
    ⟨"due", 1000, .ready, some 2000, .untilTranscribed, 10, ["media/due/mic.opus"]⟩,
    ⟨"new", 3000, .recording, none, .default, 30, ["media/new/mic.opus"]⟩,
    ⟨"old", 2000, .ready, some 4000, .default, 20, ["media/old/mic.opus"]⟩]
  nodup_ids := by decide
  bytes_fit := by decide

/-- Without the first there are 50 bytes left, and 40 may stay. -/
theorem planSweep_correct_three :
    (planSweep 5000 threeMeetings.meetings ⟨30, 40⟩).evictions.map (·.meetingId) =
        ["due", "old"] ∧
      SweepCorrect 5000 threeMeetings ⟨30, 40⟩
        (planSweep 5000 threeMeetings.meetings ⟨30, 40⟩) :=
  ⟨by decide +kernel, planSweep_correct 5000 threeMeetings ⟨30, 40⟩⟩

/-- A larger budget only ends the list of evictions earlier: what it takes, it takes in the same
    order, for the same reason and with the same files. -/
theorem larger_budget_spares (nowMs : ℕ) (lib : Library) (settings : RetentionSettings)
    (more : ℕ) :
    (planSweep nowMs lib.meetings
      { settings with budgetBytes := settings.budgetBytes + more }).evictions <+:
      (planSweep nowMs lib.meetings settings).evictions := by
  rw [planSweep_evictions, planSweep_evictions]
  exact prefix_append_right_inj _ |>.mpr ((shed_add_isPrefix _ _ _ _ more).map _)

theorem larger_budget_spares_old :
    (planSweep 5000 threeMeetings.meetings ⟨30, 50⟩).evictions.map (·.meetingId) = ["due"] ∧
      (planSweep 5000 threeMeetings.meetings ⟨30, 50⟩).evictions <+:
        (planSweep 5000 threeMeetings.meetings ⟨30, 40⟩).evictions :=
  ⟨by decide +kernel, larger_budget_spares 5000 threeMeetings ⟨30, 40⟩ 10⟩

end FlyOnTheWall.Retention
