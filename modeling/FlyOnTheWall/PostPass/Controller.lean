/-
  The daemon's cleanup worker and the calls that come in while it works.

  One worker reads the queue and runs the pending jobs one at a time; a cancel can arrive at any
  of its steps. A cancel has three steps: it reads the job, fails it in a transaction of its own
  that leaves a settled job alone, and then looks at the handle of the running job, to stop that
  job or else to send the job's notification itself. The worker sends the notification of every
  job it finds settled after its run.

  * `step`: one atomic step of the worker or of a call.
  * `Accounted`: what holds of one meeting's job and of the worker's business with it.
  * `settled_exactly_once`: in the runs in which the last step of every cancel finds the job
    registered, or the worker without it, each job is settled once; in the runs in which no job
    is completed between the first two steps, a job whose cancel was accepted is failed. In the
    other runs neither holds (`cancelled_job_settled_twice`).
-/
import FlyOnTheWall.Lib.Run
import FlyOnTheWall.PostPass.Job

namespace FlyOnTheWall.PostPass
open Lib List Option

variable {κ : Type} [DecidableEq κ]

/-! ## The worker and the calls -/

/-- How a run of a job ended: `Outcome::Done`, `Outcome::Stopped` or an error. -/
inductive RunEnd
  | done
  | stopped
  | error
  deriving DecidableEq

/-- Where `run_one` is with its meeting. The handle of the running job is registered in
    `running` and `ended`. -/
inductive Phase
  | creating
  | running
  | ended (r : RunEnd)
  | concluding (r : RunEnd)
  | counting
  | failing
  | settling
  deriving DecidableEq

/-- One meeting. `left` counts how often its stored state left pending, `notified` how often its
    notification was sent, `looking` the cancels that have found it pending and not yet failed
    it, `cancelling` those that have not yet looked at the handle. -/
structure Meeting where
  job : Option PostPassState
  failures : ℕ
  left : ℕ
  notified : ℕ
  looking : ℕ
  cancelling : ℕ
  deriving DecidableEq

/-- `listed` is what the worker still has of the queue as it last read it. -/
structure Control (κ : Type) where
  meeting : κ → Meeting
  listed : List κ
  work : Option (κ × Phase)
  stop : Bool
  shutdown : Bool

/-- The flags say whether the engine could be made, whether the library could be opened and
    whether the transaction of a cancel was committed. -/
inductive Label (κ : Type)
  | queue (m : κ)
  | scan (ms : List κ)
  | begin
  | skip
  | engine (made : Bool)
  | finish (r : RunEnd)
  | clear
  | conclude (opens : Bool)
  | count
  | fail (opens : Bool)
  | notify
  | cancel (m : κ)
  | cancelFail (m : κ) (committed : Bool)
  | cancelRest (m : κ)
  | shutdown
  deriving DecidableEq

variable (s : Control κ)

def Control.set (m : κ) (x : Meeting) : Control κ :=
  { s with meeting := fun m' => if m' = m then x else s.meeting m' }

/-- The registered handle of the running job. -/
def Control.running : Option κ :=
  match s.work with
  | some (m, .running) => some m
  | some (m, .ended _) => some m
  | _ => none

variable (x : Meeting)

def Meeting.pending : Bool := x.job == some .pending

/-- The stored state leaves pending. -/
def Meeting.leave (state : PostPassState) : Meeting :=
  { x with job := some state, left := x.left + 1 }

/-- `settle`. -/
def Meeting.settle : Meeting :=
  { x with failures := 0, notified := x.notified + 1 }

/-- The waits before a failed job is tried again: 30, 120 and 600 seconds. -/
def backoff : List ℕ := [30, 120, 600]

/-- What follows a run; `pending` is what `still_pending` said. -/
def afterRun (r : RunEnd) (pending : Bool) : Option Phase :=
  match r, pending with
  | .done, _ => some .settling
  | .stopped, true => none
  | .stopped, false => some .settling
  | .error, true => some .counting
  | .error, false => some .settling

def Control.stepWork (m : κ) : Phase → Label κ → Option (Control κ)
  | .creating, .engine made =>
    some { s with work := some (m, if made then .running else .counting), stop := s.shutdown }
  | .running, .finish .done =>
    if (s.meeting m).pending then
      some { s.set m ((s.meeting m).leave .done) with work := some (m, .ended .done) }
    else none
  | .running, .finish .stopped =>
    if s.stop then some { s with work := some (m, .ended .stopped) } else none
  | .running, .finish .error => some { s with work := some (m, .ended .error) }
  | .ended r, .clear => some { s with work := some (m, .concluding r) }
  | .concluding r, .conclude opens =>
    some { s with
      work := (afterRun r (opens && (s.meeting m).pending)).map fun phase => (m, phase) }
  | .counting, .count =>
    let x := { s.meeting m with failures := (s.meeting m).failures + 1 }
    if x.failures ≤ backoff.length then some { s.set m x with work := none }
    else some { s.set m x with work := some (m, .failing) }
  | .failing, .fail opens =>
    if opens && (s.meeting m).pending then
      some { s.set m ((s.meeting m).leave .failed) with work := some (m, .settling) }
    else some { s with work := some (m, .settling) }
  | .settling, .notify => some { s.set m (s.meeting m).settle with work := none }
  | _, _ => none

/-- The worker between two meetings. -/
def Control.stepIdle : Label κ → Option (Control κ)
  | .scan ms =>
    if s.listed = [] ∧ s.shutdown = false ∧ ms.Nodup ∧ ∀ m ∈ ms, (s.meeting m).pending then
      some { s with listed := ms }
    else none
  | .begin =>
    match s.listed with
    | [] => none
    | m :: rest =>
      if s.shutdown then none else some { s with listed := rest, work := some (m, .creating) }
  | .skip =>
    match s.listed with
    | [] => none
    | _ :: rest => some { s with listed := rest }
  | _ => none

/-- `post_pass_fail` after the look: what is no longer pending stays as it is. -/
def Meeting.failCancelled : Meeting :=
  let x := { x with looking := x.looking - 1, cancelling := x.cancelling + 1 }
  if x.pending then x.leave .failed else x

/-- The calls. A cancel that finds no pending job changes nothing; one whose transaction is
    committed is accepted, whatever the transaction found. -/
def Control.step : Label κ → Option (Control κ)
  | .queue m =>
    if (s.meeting m).job = none then some (s.set m { s.meeting m with job := some .pending })
    else some s
  | .cancel m =>
    if (s.meeting m).pending then
      some (s.set m { s.meeting m with looking := (s.meeting m).looking + 1 })
    else some s
  | .cancelFail m committed =>
    if (s.meeting m).looking = 0 then none
    else if committed then some (s.set m (s.meeting m).failCancelled)
    else some (s.set m { s.meeting m with looking := (s.meeting m).looking - 1 })
  | .cancelRest m =>
    if (s.meeting m).cancelling = 0 then none
    else
      let x := { s.meeting m with cancelling := (s.meeting m).cancelling - 1 }
      if s.running = some m then some { s.set m x with stop := true } else some (s.set m x.settle)
  | .shutdown => some { s with shutdown := true, stop := true }
  | label =>
    match s.work with
    | some (m, phase) => s.stepWork m phase label
    | none => s.stepIdle label

/-! ## The worker's business with a meeting -/

inductive Role
  | away
  | listed
  | busy (phase : Phase)
  deriving DecidableEq

def Control.role (m : κ) : Role :=
  match s.work with
  | some (m', phase) =>
    if m' = m then .busy phase else if m ∈ s.listed then .listed else .away
  | none => if m ∈ s.listed then .listed else .away

def Meeting.settled : Bool := x.job == some .done || x.job == some .failed

/-- The worker will send the notification of a job that is settled. -/
def Role.concludes : Role → Bool
  | .busy .running => true
  | .busy (.ended _) => true
  | .busy (.concluding _) => true
  | .busy .settling => true
  | _ => false

/-- The last step of a cancel finds the job registered, or the worker without it and no
    notification sent; and the library opens when the worker looks at a pending job. -/
def Control.calm : Label κ → Bool
  | .cancelRest m =>
    s.running == some m || (s.role m == .away && (s.meeting m).notified == 0)
  | .conclude opens => opens || !(s.work.any fun w => (s.meeting w.1).pending)
  | .fail opens => opens || !(s.work.any fun w => (s.meeting w.1).pending)
  | _ => true

/-- The transaction of a cancel finds the job as its look did, or failed meanwhile. -/
def Control.inTime : Label κ → Bool
  | .cancelFail m true => (s.meeting m).pending || (s.meeting m).job == some .failed
  | _ => true

/-- A meeting's counters, given the worker's business with it. -/
structure Accounted (r : Role) : Prop where
  left : x.left = if x.settled then 1 else 0
  cancelling : 0 < x.cancelling → x.settled = true
  told : 0 < x.notified → x.notified = 1 ∧ x.settled = true ∧ r = .away
  known : r ≠ .away → x.job ≠ none
  done : r = .busy (.ended .done) ∨ r = .busy (.concluding .done) → x.job = some .done
  settling : r = .busy .settling → x.settled = true
  owed : x.settled = true → x.notified = 0 → 0 < x.cancelling ∨ r.concludes = true
  sought : 0 < x.looking → x.job ≠ none

namespace Accounted
variable {x : Meeting} {r : Role}

theorem unsettled (hp : x.pending = true) : x.settled = false := by
  have hjob : x.job = some .pending := by simpa [Meeting.pending] using hp
  simp [Meeting.settled, hjob]

/-- A job that is there and not pending is settled. -/
theorem settled_of (hknown : x.job ≠ none) (hp : x.pending = false) : x.settled = true := by
  unfold Meeting.pending at hp
  unfold Meeting.settled
  rcases hjob : x.job with _ | state
  · exact absurd hjob hknown
  · cases state with
    | pending => simp [hjob] at hp
    | done | failed => simp

section
variable (h : Accounted x r) (hr : r ≠ .away)
include h hr

theorem not_told : x.notified = 0 := by
  rcases Nat.eq_zero_or_pos x.notified with hzero | hpos
  · exact hzero
  · exact absurd (h.told hpos).2.2 hr

/-- The worker goes on with a meeting it has, which nobody else touches. -/
theorem goOn {q : Role}
    (hdone : q = .busy (.ended .done) ∨ q = .busy (.concluding .done) → x.job = some .done)
    (hsettling : q = .busy .settling → x.settled = true)
    (howed : x.settled = true → r.concludes = true → q.concludes = true) : Accounted x q where
  left := h.left
  cancelling := h.cancelling
  told hpos := absurd (h.not_told hr) (Nat.pos_iff_ne_zero.mp hpos)
  known _ := h.known hr
  done := hdone
  settling := hsettling
  owed hs hn := (h.owed hs hn).imp_right (howed hs)
  sought := h.sought

end

theorem queued (h : Accounted x r) (hnone : x.job = none) :
    Accounted { x with job := some .pending } r := by
  have hsettled : x.settled = false := by simp [Meeting.settled, hnone]
  have haway : r = .away := by
    by_contra hr
    exact h.known hr hnone
  refine ⟨?_, fun hpos => ?_, fun hpos => ?_, fun _ => by simp, ?_, ?_, fun hs => ?_,
    fun _ => by simp⟩
  · rw [h.left, hsettled]
    rfl
  · rw [h.cancelling hpos] at hsettled
    cases hsettled
  · rw [(h.told hpos).2.1] at hsettled
    cases hsettled
  · rw [haway]
    simp
  · rw [haway]
    simp
  · simp [Meeting.settled] at hs

theorem listed (h : Accounted x .away) (hp : x.pending = true) : Accounted x .listed := by
  have hsettled := unsettled hp
  refine ⟨h.left, h.cancelling, fun hpos => ?_, fun _ => ?_, by simp, by simp, fun hs => ?_,
    h.sought⟩
  · rw [(h.told hpos).2.1] at hsettled
    cases hsettled
  · intro hnone
    simp [Meeting.pending, hnone] at hp
  · rw [hs] at hsettled
    cases hsettled

/-- The worker leaves a meeting without settling it. -/
theorem letGo (h : Accounted x r) (hr : r ≠ .away)
    (howed : x.settled = true → r.concludes = false) : Accounted x .away where
  left := h.left
  cancelling := h.cancelling
  told hpos := absurd (h.not_told hr) (Nat.pos_iff_ne_zero.mp hpos)
  known hne := absurd rfl hne
  done := by simp
  settling := by simp
  owed hs hn := by
    rcases h.owed hs hn with hc | hc
    · exact .inl hc
    · rw [howed hs] at hc
      cases hc
  sought := h.sought

/-- Only the failures are counted. -/
theorem failures (h : Accounted x r) (n : ℕ) : Accounted { x with failures := n } r := { h with }

/-- The worker takes a pending job to its end. -/
theorem leave (h : Accounted x r) (hr : r ≠ .away) (hp : x.pending = true) {state : PostPassState}
    {q : Role} (hstate : state ≠ .pending) (hq : q.concludes = true)
    (hdone : q = .busy (.ended .done) ∨ q = .busy (.concluding .done) → state = .done) :
    Accounted (x.leave state) q := by
  have hsettled : (x.leave state).settled = true := by
    cases state with
    | pending => exact absurd rfl hstate
    | done | failed => rfl
  refine ⟨?_, fun _ => hsettled, fun hpos => ?_, fun _ => by simp [Meeting.leave], fun hc => ?_,
    fun _ => hsettled, fun _ _ => .inr hq, fun _ => by simp [Meeting.leave]⟩
  · show x.left + 1 = _
    rw [h.left, unsettled hp, hsettled]
    rfl
  · exact absurd (h.not_told hr) (Nat.pos_iff_ne_zero.mp hpos)
  · show some state = _
    rw [hdone hc]

theorem notify (h : Accounted x (.busy .settling)) : Accounted x.settle .away := by
  have hzero := h.not_told (by simp)
  refine ⟨h.left, h.cancelling, fun _ => ⟨?_, h.settling rfl, rfl⟩, by simp, by simp, by simp,
    fun _ hn => ?_, h.sought⟩
  · show x.notified + 1 = 1
    rw [hzero]
  · exact absurd hn (by simp [Meeting.settle])

/-- A cancel looks at the job, or ends with its transaction not committed. -/
theorem looked (h : Accounted x r) {n : ℕ} (hn : 0 < n → x.job ≠ none) :
    Accounted { x with looking := n } r :=
  { h with sought := hn }

/-- A cancel was accepted: the job is settled by now, and the last step of the cancel is owed. -/
theorem accepted (h : Accounted x r) (hknown : x.job ≠ none) : Accounted x.failCancelled r := by
  unfold Meeting.failCancelled
  dsimp only
  split
  · next hp =>
    have hp : x.pending = true := hp
    have hunsettled := unsettled hp
    refine ⟨?_, fun _ => rfl, fun hpos => ?_, fun _ => by simp [Meeting.leave], fun hc => ?_,
      fun _ => rfl, fun _ _ => .inl (Nat.succ_pos _), fun _ => by simp [Meeting.leave]⟩
    · show x.left + 1 = _
      rw [h.left, hunsettled]
      rfl
    · rw [(h.told hpos).2.1] at hunsettled
      cases hunsettled
    · have hdone := h.done hc
      simp [Meeting.settled, hdone] at hunsettled
  · next hp =>
    have hsettled := settled_of hknown (Bool.not_eq_true _ ▸ hp)
    exact { h with
      cancelling := fun _ => hsettled
      owed := fun _ _ => .inl (Nat.succ_pos _)
      sought := fun _ => hknown }

/-- The last step of a cancel that finds the job registered. -/
theorem stopped (h : Accounted x r) (hr : r.concludes = true) :
    Accounted { x with cancelling := x.cancelling - 1 } r :=
  { h with
    cancelling := fun hpos => h.cancelling (Nat.lt_of_lt_of_le hpos (Nat.sub_le _ _))
    owed := fun _ _ => .inr hr }

/-- The last step of a cancel that finds the worker without the job. -/
theorem settled (h : Accounted x .away) (hc : x.cancelling ≠ 0) (hn : x.notified = 0) :
    Accounted (Meeting.settle { x with cancelling := x.cancelling - 1 }) .away := by
  have hsettled := h.cancelling (Nat.pos_of_ne_zero hc)
  refine ⟨h.left, fun _ => hsettled, fun _ => ⟨?_, hsettled, rfl⟩, by simp, by simp, by simp,
    fun _ hzero => ?_, h.sought⟩
  · show x.notified + 1 = 1
    rw [hn]
  · exact absurd hzero (by simp [Meeting.settle])

end Accounted

/-! ## One step -/

/-- Every meeting is accounted for, and the worker has each meeting at most once. -/
structure Sound : Prop where
  nodup : s.listed.Nodup
  apart : ∀ m phase, s.work = some (m, phase) → m ∉ s.listed
  each : ∀ m, Accounted (s.meeting m) (s.role m)

section Step
variable {s t : Control κ} {m : κ} {phase : Phase}

theorem role_of_work (h : s.work = some (m, phase)) : s.role m = .busy phase := by
  simp [Control.role, h]

theorem role_other {m' : κ} (h : s.work = some (m, phase)) (hne : m' ≠ m) :
    s.role m' = if m' ∈ s.listed then .listed else .away := by
  simp [Control.role, h, hne.symm]

theorem role_idle (h : s.work = none) (m' : κ) :
    s.role m' = if m' ∈ s.listed then .listed else .away := by
  simp [Control.role, h]

def Role.next : Option Phase → Role
  | some phase => .busy phase
  | none => .away

variable {x : Meeting} {n : Option Phase}

open Control Meeting Role

theorem Sound.worked (h : Sound s) (hw : s.work = some (m, phase)) (hx : Accounted x (next n))
    (hmeeting : ∀ m', t.meeting m' = if m' = m then x else s.meeting m')
    (hlisted : t.listed = s.listed) (hwork : t.work = n.map fun p => (m, p)) : Sound t := by
  have hapart := h.apart m phase hw
  refine ⟨by rw [hlisted]; exact h.nodup, fun m' p hp => ?_, fun m' => ?_⟩
  · rw [hwork] at hp
    cases n with
    | none => cases hp
    | some q =>
      cases hp
      rw [hlisted]
      exact hapart
  · rw [hmeeting]
    by_cases hm : m' = m
    · subst hm
      rw [if_pos rfl]
      have hrole : t.role m' = next n := by
        cases n with
        | none =>
          rw [role_idle hwork, hlisted, if_neg hapart]
          rfl
        | some q => exact role_of_work hwork
      rw [hrole]
      exact hx
    · rw [if_neg hm]
      have hrole : t.role m' = s.role m' := by
        rw [role_other hw hm]
        cases n with
        | none => rw [role_idle hwork, hlisted]
        | some q => rw [role_other hwork hm, hlisted]
      rw [hrole]
      exact h.each m'

/-- A call that touches one meeting and not the worker's business. -/
theorem Sound.called (h : Sound s) (hx : Accounted x (s.role m))
    (hmeeting : ∀ m', t.meeting m' = if m' = m then x else s.meeting m')
    (hlisted : t.listed = s.listed) (hwork : t.work = s.work) : Sound t := by
  have hrole : ∀ m', t.role m' = s.role m' := by
    intro m'
    unfold role
    rw [hlisted, hwork]
  refine ⟨by rw [hlisted]; exact h.nodup, ?_, fun m' => ?_⟩
  · rw [hlisted, hwork]
    exact h.apart
  · rw [hmeeting, hrole]
    by_cases hm : m' = m
    · subst hm
      rw [if_pos rfl]
      exact hx
    · rw [if_neg hm]
      exact h.each m'

/-- A settled job is left alone. -/
def Steady (s t : Control κ) : Prop :=
  ∀ m, (s.meeting m).settled = true → (t.meeting m).job = (s.meeting m).job

theorem Steady.of_set (hmeeting : ∀ m', t.meeting m' = if m' = m then x else s.meeting m')
    (hx : (s.meeting m).settled = true → x.job = (s.meeting m).job) : Steady s t := by
  intro m' hm'
  rw [hmeeting]
  by_cases hm : m' = m
  · subst hm
    rw [if_pos rfl]
    exact hx hm'
  · rw [if_neg hm]

theorem not_settled_of_pending {job : Option PostPassState} (hp : x.pending = true)
    (hs : x.settled = true) : job = x.job := by
  rw [Accounted.unsettled hp] at hs
  cases hs

theorem failCancelled_settled (hs : x.settled = true) : x.failCancelled.job = x.job := by
  unfold failCancelled
  dsimp only
  split
  · next hp => exact not_settled_of_pending (x := x) hp hs
  · rfl

/-- What a step keeps: a settled job, and in calm every meeting accounted for. -/
def Keeps (s : Control κ) (label : Label κ) (t : Control κ) : Prop :=
  Steady s t ∧ (s.calm label = true → Sound s → Sound t)

variable {label : Label κ}

section
variable (hw : s.work = some (m, phase))
include hw

/-- A step of the worker that changes the meeting's record. -/
theorem Keeps.worked (hmeeting : ∀ m', t.meeting m' = if m' = m then x else s.meeting m')
    (hlisted : t.listed = s.listed) (hwork : t.work = n.map fun p => (m, p))
    (hjob : (s.meeting m).settled = true → x.job = (s.meeting m).job)
    (hx : s.calm label = true → Accounted (s.meeting m) (.busy phase) → Accounted x (next n)) :
    Keeps s label t := by
  refine ⟨.of_set hmeeting hjob, fun hcalm h => ?_⟩
  have heach := h.each m
  rw [role_of_work hw] at heach
  exact h.worked hw (hx hcalm heach) hmeeting hlisted hwork

/-- A step of the worker that leaves the meeting's record as it is. -/
theorem Keeps.moved (hmeeting : t.meeting = s.meeting) (hlisted : t.listed = s.listed)
    (hwork : t.work = n.map fun p => (m, p))
    (hx : s.calm label = true → Accounted (s.meeting m) (.busy phase) →
      Accounted (s.meeting m) (next n)) : Keeps s label t := by
  refine .worked hw (fun m' => ?_) hlisted hwork (fun _ => rfl) hx
  rw [hmeeting]
  by_cases hm : m' = m
  · rw [if_pos hm, hm]
  · rw [if_neg hm]

theorem stepWork_keeps (hstep : s.stepWork m phase label = some t) : Keeps s label t := by
  unfold stepWork at hstep
  split at hstep
  · next made =>
    cases hstep
    refine .moved (n := some (if made then .running else .counting)) hw rfl rfl rfl fun _ hm => ?_
    refine hm.goOn (by simp) ?_ ?_ ?_ <;> cases made <;> simp [Role.next, concludes]
  · split at hstep
    · next hp =>
      cases hstep
      exact .worked (n := some (.ended .done)) hw (fun _ => rfl) rfl rfl
        (not_settled_of_pending hp) fun _ hm =>
        hm.leave (by simp) hp (by simp) rfl fun _ => rfl
    · cases hstep
  · split at hstep
    · cases hstep
      exact .moved (n := some (.ended .stopped)) hw rfl rfl rfl fun _ hm =>
        hm.goOn (by simp) (by simp [Role.next]) (by simp [Role.next]) fun _ _ => rfl
    · cases hstep
  · cases hstep
    exact .moved (n := some (.ended .error)) hw rfl rfl rfl fun _ hm =>
      hm.goOn (by simp) (by simp [Role.next]) (by simp [Role.next]) fun _ _ => rfl
  · next r =>
    cases hstep
    refine .moved (n := some (.concluding r)) hw rfl rfl rfl fun _ hm =>
      hm.goOn (by simp) (fun hc => hm.done (.inl ?_)) (by simp [Role.next]) fun _ _ => rfl
    have hr : r = .done := by simpa [Role.next] using hc
    rw [hr]
  · next r opens =>
    cases hstep
    refine .moved (n := afterRun r (opens && (s.meeting m).pending)) hw rfl rfl rfl
      fun hcalm hm => ?_
    -- the worker sees whether the job is pending as it is
    have hseen : (opens && (s.meeting m).pending) = (s.meeting m).pending := by
      simp only [calm, hw, any_some] at hcalm
      cases opens <;> simp_all
    rw [hseen]
    have hsettle : (s.meeting m).settled = true → Accounted (s.meeting m) (.busy .settling) :=
      fun hs => hm.goOn (by simp) (by simp) (fun _ => hs) fun _ _ => rfl
    cases hp : (s.meeting m).pending with
    | false =>
      have hs := Accounted.settled_of (hm.known (by simp)) hp
      cases r <;> exact hsettle hs
    | true =>
      have hunsettled := Accounted.unsettled hp
      cases r with
      | done =>
        refine hsettle ?_
        simp [settled, hm.done (.inr rfl)]
      | stopped => exact hm.letGo (by simp) fun hs => by rw [hs] at hunsettled; cases hunsettled
      | error =>
        exact hm.goOn (by simp) (by simp [Role.next, afterRun]) (by simp [Role.next, afterRun])
          fun hs => by rw [hs] at hunsettled; cases hunsettled
  · dsimp only at hstep
    split at hstep
    · cases hstep
      exact .worked (n := none) hw (fun _ => rfl) rfl rfl (fun _ => rfl) fun _ hm =>
        (hm.letGo (by simp) fun _ => rfl).failures _
    · cases hstep
      exact .worked (n := some .failing) hw (fun _ => rfl) rfl rfl (fun _ => rfl) fun _ hm =>
        (hm.goOn (by simp) (by simp [Role.next]) (by simp [Role.next])
          (by simp [concludes])).failures _
  · next opens =>
    split at hstep
    · next hp =>
      cases hstep
      have hp : (s.meeting m).pending = true := (Bool.and_eq_true_iff.mp hp).2
      exact .worked (n := some .settling) hw (fun _ => rfl) rfl rfl
        (not_settled_of_pending hp) fun _ hm =>
        hm.leave (by simp) hp (by simp) rfl (by simp [Role.next])
    · cases hstep
      refine .moved (n := some .settling) hw rfl rfl rfl fun hcalm hm => ?_
      have hp : (s.meeting m).pending = false := by
        simp only [calm, hw, any_some] at hcalm
        cases opens <;> simp_all
      have hs := Accounted.settled_of (hm.known (by simp)) hp
      exact hm.goOn (by simp) (by simp [Role.next]) (fun _ => hs) fun _ _ => rfl
  · cases hstep
    exact .worked (n := none) hw (fun _ => rfl) rfl rfl (fun _ => rfl) fun _ hm => hm.notify
  · cases hstep

end

theorem stepIdle_keeps (hw : s.work = none) (hstep : s.stepIdle label = some t) :
    Keeps s label t := by
  unfold stepIdle at hstep
  split at hstep
  · next ms =>
    split at hstep
    · next hscan =>
      obtain ⟨hempty, -, hnodup, hpending⟩ := hscan
      cases hstep
      refine ⟨fun _ _ => rfl, fun _ h => ⟨hnodup, fun m p hp => ?_, fun m => ?_⟩⟩
      · rw [show s.work = some (m, p) from hp] at hw
        cases hw
      · have heach := h.each m
        rw [role_idle hw, hempty, if_neg not_mem_nil] at heach
        have hwork : work { s with listed := ms } = none := hw
        rw [role_idle hwork]
        by_cases hm : m ∈ ms
        · rw [if_pos hm]
          exact heach.listed (hpending m hm)
        · rw [if_neg hm]
          exact heach
    · cases hstep
  · split at hstep
    · cases hstep
    · next m rest hlisted =>
      split at hstep
      · cases hstep
      cases hstep
      refine ⟨fun _ _ => rfl, fun _ h => ?_⟩
      have hnodup : (m :: rest).Nodup := hlisted ▸ h.nodup
      refine ⟨(nodup_cons.mp hnodup).2, fun m' p hp => ?_, fun m' => ?_⟩
      · cases hp
        exact (nodup_cons.mp hnodup).1
      · have heach := h.each m'
        rw [role_idle hw, hlisted] at heach
        by_cases hm : m' = m
        · subst hm
          rw [role_of_work rfl]
          exact heach.goOn (by simp) (by simp) (by simp) (by simp [concludes])
        · rw [role_other rfl hm]
          simpa [hm] using heach
  · split at hstep
    · cases hstep
    · next m rest hlisted =>
      cases hstep
      refine ⟨fun _ _ => rfl, fun _ h => ?_⟩
      have hnodup : (m :: rest).Nodup := hlisted ▸ h.nodup
      refine ⟨(nodup_cons.mp hnodup).2, fun m' p hp => ?_, fun m' => ?_⟩
      · rw [show s.work = some (m', p) from hp] at hw
        cases hw
      · have heach := h.each m'
        rw [role_idle hw, hlisted] at heach
        have hwork : work { s with listed := rest } = none := hw
        rw [role_idle hwork]
        by_cases hm : m' = m
        · subst hm
          rw [if_pos mem_cons_self] at heach
          rw [if_neg (nodup_cons.mp hnodup).1]
          exact heach.letGo (by simp) fun _ => rfl
        · simpa [hm] using heach
  · cases hstep

theorem step_keeps (hstep : s.step label = some t) : Keeps s label t := by
  unfold step at hstep
  split at hstep
  · next m =>
    split at hstep
    · next hnone =>
      cases hstep
      refine ⟨.of_set (fun _ => rfl) fun hs => ?_, fun _ h =>
        h.called ((h.each m).queued hnone) (fun _ => rfl) rfl rfl⟩
      simp [settled, hnone] at hs
    · cases hstep
      exact ⟨fun _ _ => rfl, fun _ h => h⟩
  · next m =>
    split at hstep
    · next hp =>
      cases hstep
      refine ⟨.of_set (fun _ => rfl) fun _ => rfl, fun _ h =>
        h.called ((h.each m).looked fun _ hnone => ?_) (fun _ => rfl) rfl rfl⟩
      simp [pending, hnone] at hp
    · cases hstep
      exact ⟨fun _ _ => rfl, fun _ h => h⟩
  · next m committed =>
    split at hstep
    · cases hstep
    rename_i hlooking
    have hpos := Nat.pos_of_ne_zero hlooking
    split at hstep
    · cases hstep
      exact ⟨.of_set (fun _ => rfl) failCancelled_settled, fun _ h =>
        h.called ((h.each m).accepted ((h.each m).sought hpos)) (fun _ => rfl) rfl rfl⟩
    · cases hstep
      exact ⟨.of_set (fun _ => rfl) fun _ => rfl, fun _ h =>
        h.called ((h.each m).looked fun _ => (h.each m).sought hpos) (fun _ => rfl) rfl rfl⟩
  · next m =>
    split at hstep
    · cases hstep
    rename_i hcancelling
    split at hstep
    · next hrunning =>
      cases hstep
      refine ⟨.of_set (fun _ => rfl) fun _ => rfl, fun _ h =>
        h.called ((h.each m).stopped ?_) (fun _ => rfl) rfl rfl⟩
      unfold running at hrunning
      split at hrunning
      · next hw =>
        cases hrunning
        rw [role_of_work hw]
        rfl
      · next hw =>
        cases hrunning
        rw [role_of_work hw]
        rfl
      · cases hrunning
    · next hrunning =>
      cases hstep
      refine ⟨.of_set (fun _ => rfl) fun _ => rfl, fun hcalm h =>
        h.called ?_ (fun _ => rfl) rfl rfl⟩
      simp only [calm, Bool.or_eq_true, beq_iff_eq, Bool.and_eq_true, hrunning, false_or] at hcalm
      have heach := h.each m
      rw [hcalm.1] at heach ⊢
      exact heach.settled hcancelling hcalm.2
  · cases hstep
    exact ⟨fun _ _ => rfl, fun _ h => ⟨h.nodup, h.apart, h.each⟩⟩
  · split at hstep
    · next hw =>
      exact stepWork_keeps hw hstep
    · next hw =>
      exact stepIdle_keeps hw hstep

end Step

/-! ## Whole runs -/

/-- A daemon that has just started: the jobs of the library, and nobody at work. -/
structure Starts : Prop where
  idle : s.work = none
  unread : s.listed = []
  each : ∀ m, (s.meeting m).looking = 0 ∧ (s.meeting m).cancelling = 0 ∧
    (s.meeting m).left = (if (s.meeting m).settled then 1 else 0) ∧
    (s.meeting m).notified = (if (s.meeting m).settled then 1 else 0)

theorem Starts.sound {s : Control κ} (h : Starts s) : Sound s := by
  refine ⟨by rw [h.unread]; exact nodup_nil, fun m p hp => ?_, fun m => ?_⟩
  · rw [h.idle] at hp
    cases hp
  · obtain ⟨hlooking, hcancelling, hleft, hnotified⟩ := h.each m
    rw [role_idle h.idle, h.unread, if_neg not_mem_nil]
    refine ⟨hleft, fun hpos => ?_, fun hpos => ?_, by simp, by simp, by simp, fun hs hn => ?_,
      fun hpos => absurd hlooking (Nat.pos_iff_ne_zero.mp hpos)⟩
    · rw [hcancelling] at hpos
      exact absurd hpos (lt_irrefl 0)
    · cases hs : (s.meeting m).settled with
      | true =>
        rw [hs] at hnotified
        exact ⟨hnotified, rfl, rfl⟩
      | false =>
        rw [hnotified, hs] at hpos
        exact absurd hpos (lt_irrefl 0)
    · rw [hs, hn] at hnotified
      cases hnotified

/-- The stored state has left pending once if at all, the notification has been sent once if at
    all and not before that, and once nobody is at work on the job it has been sent. -/
structure SettledOnce (m : κ) : Prop where
  left : (s.meeting m).left = if (s.meeting m).settled then 1 else 0
  atMostOnce : (s.meeting m).notified ≤ 1
  settledFirst : (s.meeting m).notified = 1 → (s.meeting m).settled = true
  sent : (s.meeting m).settled = true → (s.meeting m).cancelling = 0 → s.role m = .away →
    (s.meeting m).notified = 1

theorem Sound.settledOnce {s : Control κ} (h : Sound s) (m : κ) : SettledOnce s m := by
  have heach := h.each m
  have hbound : (s.meeting m).notified ≤ 1 := by
    rcases Nat.eq_zero_or_pos (s.meeting m).notified with hzero | hpos
    · omega
    · exact (heach.told hpos).1.le
  refine ⟨heach.left, hbound, fun hone => (heach.told (by omega)).2.1, fun hs hc haway => ?_⟩
  by_contra hne
  rcases heach.owed hs (by omega) with hpos | hconcludes
  · omega
  · rw [haway] at hconcludes
    cases hconcludes

/-- An accepted cancel finds the job pending and fails it, or finds it failed. -/
theorem failed_of_inTime {s t : Control κ} {m : κ} (htime : s.inTime (.cancelFail m true) = true)
    (hstep : s.step (.cancelFail m true) = some t) : (t.meeting m).job = some .failed := by
  simp only [Control.step, if_true] at hstep
  split at hstep
  · cases hstep
  cases hstep
  show (if m = m then (s.meeting m).failCancelled else s.meeting m).job = some .failed
  rw [if_pos rfl]
  unfold Meeting.failCancelled
  dsimp only
  split
  · rfl
  · next hp =>
    have hp : (s.meeting m).pending = false := Bool.not_eq_true _ ▸ hp
    simpa [Control.inTime, hp] using htime

/-- A failed job stays failed, and so does one whose cancel is accepted on the way. -/
theorem run_failed {s t : Control κ} {labels : List (Label κ)} {m : κ}
    (hrun : Run Control.step (·.inTime ·) s labels t)
    (h : (s.meeting m).job = some .failed ∨ .cancelFail m true ∈ labels) :
    (t.meeting m).job = some .failed := by
  induction hrun with
  | nil => exact h.resolve_right not_mem_nil
  | @cons s u t label labels htime hstep _ ih =>
    apply ih
    rcases h with hfailed | hmem
    · left
      rw [(step_keeps hstep).1 m (by simp [Meeting.settled, hfailed]), hfailed]
    · rcases mem_cons.mp hmem with hlabel | hmem
      · subst hlabel
        exact .inl (failed_of_inTime htime hstep)
      · exact .inr hmem

/-- In every run in calm each job is settled once. In every run in which no job is completed
    between a cancel's look and its transaction, a job whose cancel was accepted is failed. -/
theorem settled_exactly_once {s t : Control κ} {labels : List (Label κ)} (hs : Starts s) :
    (Run Control.step (·.calm ·) s labels t → ∀ m, SettledOnce t m) ∧
    (Run Control.step (·.inTime ·) s labels t →
      ∀ m, .cancelFail m true ∈ labels → (t.meeting m).job = some .failed) := by
  refine ⟨fun hrun m => ?_, fun hrun m hmem => run_failed hrun (.inr hmem)⟩
  have hsound := hrun.invariant (fun _ _ _ h hcalm hstep => (step_keeps hstep).2 hcalm h) hs.sound
  exact hsound.settledOnce m

/-- Two queued jobs. -/
def twoJobs : Control Bool where
  meeting _ := ⟨some .pending, 0, 0, 0, 0, 0⟩
  listed := []
  work := none
  stop := false
  shutdown := false

/-- The first job is cancelled while it is registered. -/
def cancelledWhileRunning : List (Label Bool) :=
  [.scan [true, false], .begin, .engine true, .cancel true, .cancelFail true true,
    .cancelRest true, .finish .stopped, .clear, .conclude true, .notify]

theorem settled_exactly_once_while_running :
    ∃ t, runAll Control.step Control.calm twoJobs cancelledWhileRunning = some t ∧
      SettledOnce t true ∧ (t.meeting true).notified = 1 ∧ (t.meeting true).job = some .failed := by
  have hstarts : Starts twoJobs := ⟨rfl, rfl, fun _ => ⟨rfl, rfl, rfl, rfl⟩⟩
  refine ⟨_, rfl, ?_, rfl, ?_⟩
  · exact (settled_exactly_once hstarts).1
      (run_of_runAll (show runAll _ _ _ cancelledWhileRunning = _ from rfl)) true
  · exact (settled_exactly_once hstarts).2
      (run_of_runAll (show runAll _ _ _ cancelledWhileRunning = _ from rfl)) true (by decide)

/-- The second job is cancelled while the first one runs; the worker has both on its list. -/
def cancelledWhileListed : List (Label Bool) :=
  [.scan [true, false], .begin, .engine true, .cancel false, .cancelFail false true,
    .cancelRest false, .finish .done, .clear, .conclude true, .notify, .begin, .engine true,
    .finish .error, .clear, .conclude true, .notify]

/-- The first job is completed between the look of a cancel and its transaction. -/
def cancelledWhileCompleted : List (Label Bool) :=
  [.scan [true, false], .begin, .engine true, .cancel true, .finish .done,
    .cancelFail true true, .cancelRest true]

/-- The second job is settled twice, and the first, its cancel accepted, is done. -/
theorem cancelled_job_settled_twice :
    (runAll Control.step (fun _ _ => true) twoJobs cancelledWhileListed).map
      (fun t => ((t.meeting false).job, (t.meeting false).left, (t.meeting false).notified)) =
    some (some .failed, 1, 2) ∧
    (runAll Control.step (fun _ _ => true) twoJobs cancelledWhileCompleted).map
      (fun t => (t.meeting true).job) = some (some .done) := by
  decide

end FlyOnTheWall.PostPass
