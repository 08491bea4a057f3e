/-
  The handoff policy of one source (`failover/policy.rs`).

  The policy watches the cloud leg: provider errors, transport states, confirmed finals and
  clock ticks with the count of voiced samples. It keeps the cloud, surfaces a request that
  was wrong, or switches to the local engine. The first half translates the methods; the
  second half says what a switch means in terms of the events alone, with no reference to
  the policy's own timers, and shows that every switch of every run is earned that way.
-/
import FlyOnTheWall.Failover.Coverage

namespace FlyOnTheWall.Handoff

open FlyOnTheWall.Coverage

/-! ## The policy -/

/-- `SttErrorClass`. -/
inductive SttErrorClass
  | auth
  | quota
  | rateLimit
  | concurrency
  | badRequest
  | unsupported
  | network
  | server
  | audioFormat
  | sessionLimit
  deriving DecidableEq, Repr

/-- The fields of `SttError` the policy reads. -/
structure SttError where
  errorClass : SttErrorClass
  retryAfterMs : Option ℕ
  deriving DecidableEq, Repr

inductive StreamState
  | connecting
  | «open»
  | reconnecting
  | closed
  deriving DecidableEq, Repr

structure HandoffLimits where
  failedCycles : ℕ
  retryBudgetMs : ℕ
  speechSamplesWithoutFinal : ℕ
  healthyOpenMs : ℕ
  ratePressureBudgetMs : ℕ
  deriving DecidableEq, Repr

/-- `HandoffLimits::default`. -/
def HandoffLimits.default : HandoffLimits where
  failedCycles := 3
  retryBudgetMs := 15000
  speechSamplesWithoutFinal := 45 * 16000
  healthyOpenMs := 3000
  ratePressureBudgetMs := 15000

inductive Decision
  | keepCloud
  | switch (reason : SwitchReason)
  | surface
  deriving DecidableEq, Repr

structure HandoffPolicy where
  limits : HandoffLimits
  decision : Decision
  transportSince : Option ℕ
  pressureSince : Option ℕ
  recovering : Bool
  cycleArmed : Bool
  lastState : Option StreamState
  failedCycles : ℕ
  openedSince : Option ℕ
  speechAtFinal : ℕ
  deriving DecidableEq, Repr

def u32Max : ℕ := 2 ^ 32 - 1

namespace HandoffPolicy

def new (limits : HandoffLimits) : HandoffPolicy where
  limits
  decision := .keepCloud
  transportSince := none
  pressureSince := none
  recovering := false
  cycleArmed := false
  lastState := none
  failedCycles := 0
  openedSince := none
  speechAtFinal := 0

variable (self : HandoffPolicy)

def recovered : HandoffPolicy :=
  { self with
    recovering := false
    cycleArmed := false
    failedCycles := 0
    transportSince := none
    pressureSince := none
    openedSince := none }

variable (nowMs : ℕ)

def pressureRemaining : ℕ :=
  let budget := min self.limits.ratePressureBudgetMs self.limits.retryBudgetMs
  let pressure := budget - self.pressureSince.elim 0 (fun start => nowMs - start)
  let transport :=
    self.limits.retryBudgetMs - self.transportSince.elim 0 (fun start => nowMs - start)
  min pressure transport

/-- The first step of `tick`: a socket that stayed open long enough ends the episode. -/
def settle : HandoffPolicy :=
  if self.openedSince.any (fun opened => self.limits.healthyOpenMs ≤ nowMs - opened) then
    self.recovered
  else self

def transportExpired : Bool :=
  self.transportSince.any (fun start => self.limits.retryBudgetMs ≤ nowMs - start)

def pressureExpired : Bool :=
  self.pressureSince.any (fun start =>
    min self.limits.ratePressureBudgetMs self.limits.retryBudgetMs ≤ nowMs - start)

/-- The branches that close `tick`: which budget, if any, is used up. -/
def verdict (nowMs voicedSamples : ℕ) : Decision :=
  if self.pressureSince.isSome && (self.pressureExpired nowMs || self.transportExpired nowMs) then
    .switch .rateLimitBudget
  else if self.transportExpired nowMs then
    .switch .transportBudget
  else if self.limits.speechSamplesWithoutFinal ≤ voicedSamples - self.speechAtFinal then
    .switch .speechStall
  else self.decision

def tick (nowMs voicedSamples : ℕ) : Decision × HandoffPolicy :=
  if self.decision ≠ .keepCloud then (self.decision, self)
  else
    let self := self.settle nowMs
    let decision := self.verdict nowMs voicedSamples
    (decision, { self with decision })

variable (nowMs : ℕ)

/-- A `Network` or `Server` error: the transport episode starts if none is open, and an
    armed reconnect cycle has failed. -/
def transportError (server : Bool) : HandoffPolicy :=
  let self := { self with
    openedSince := if server && self.lastState = some StreamState.open then some nowMs else none
    transportSince := some (self.transportSince.getD nowMs) }
  if self.cycleArmed then
    let failedCycles := min (self.failedCycles + 1) u32Max
    { self with
      cycleArmed := false
      failedCycles
      decision :=
        if self.limits.failedCycles ≤ failedCycles then .switch .transportBudget
        else self.decision }
  else self

/-- A `RateLimit` or `Concurrency` error: local at once if the provider asks for a longer
    wait than the budget has left. -/
def pressureError (retryAfterMs : Option ℕ) : HandoffPolicy :=
  let self := { self with
    openedSince := none
    pressureSince := some (self.pressureSince.getD nowMs) }
  if retryAfterMs.any (fun wait => self.pressureRemaining nowMs < wait) then
    { self with decision := .switch .rateLimitBudget }
  else self

/-- The `match` of `error` on the class. -/
def observe (err : SttError) : HandoffPolicy :=
  match err.errorClass with
  | .auth => { self with decision := .switch .auth }
  | .quota => { self with decision := .switch .quota }
  | .sessionLimit => self
  | .badRequest | .unsupported | .audioFormat => { self with decision := .surface }
  | .network => self.transportError nowMs false
  | .server => self.transportError nowMs true
  | .rateLimit | .concurrency => self.pressureError nowMs err.retryAfterMs

def error (err : SttError) : Decision × HandoffPolicy :=
  if self.decision ≠ .keepCloud then (self.decision, self)
  else
    let self := self.observe nowMs err
    self.tick nowMs self.speechAtFinal

def state (st : StreamState) : HandoffPolicy :=
  if self.decision ≠ .keepCloud then self
  else
    let self := { self with lastState := some st }
    match st with
    | .reconnecting => { self with recovering := true, cycleArmed := true, openedSince := none }
    | .open =>
      if self.recovering || self.transportSince.isSome then { self with openedSince := some nowMs }
      else self
    | .connecting => { self with transportSince := some (self.transportSince.getD nowMs) }
    | .closed => { self with openedSince := none }

def confirmedFinal (voicedSamples : ℕ) : HandoffPolicy :=
  if self.decision ≠ .keepCloud then self
  else { self with speechAtFinal := voicedSamples }.recovered

end HandoffPolicy

/-- One call on the policy. -/
inductive Event
  | error (nowMs : ℕ) (err : SttError)
  | state (nowMs : ℕ) (st : StreamState)
  | confirmedFinal (voicedSamples : ℕ)
  | tick (nowMs voicedSamples : ℕ)
  deriving DecidableEq, Repr

/-- What a call returns, if it returns a decision, and the policy it leaves. -/
def HandoffPolicy.step (self : HandoffPolicy) : Event → Option Decision × HandoffPolicy
  | .error nowMs err => ((self.error nowMs err).1, (self.error nowMs err).2)
  | .state nowMs st => (none, self.state nowMs st)
  | .confirmedFinal voicedSamples => (none, self.confirmedFinal voicedSamples)
  | .tick nowMs voicedSamples =>
    ((self.tick nowMs voicedSamples).1, (self.tick nowMs voicedSamples).2)

/-- The policy after a history of calls, the latest call first. -/
def policyAfter (limits : HandoffLimits) : List Event → HandoffPolicy
  | [] => .new limits
  | ev :: past => ((policyAfter limits past).step ev).2

/-! ## What the events alone say -/

def SttErrorClass.isTransport : SttErrorClass → Bool
  | .network | .server => true
  | _ => false

def SttErrorClass.isPressure : SttErrorClass → Bool
  | .rateLimit | .concurrency => true
  | _ => false

/-- The clock value a call carries. -/
def Event.nowMs : Event → Option ℕ
  | .error nowMs _ => some nowMs
  | .state nowMs _ => some nowMs
  | .confirmedFinal _ => none
  | .tick nowMs _ => some nowMs

/-- The socket's last reported state is open. -/
def socketOpen : List Event → Bool
  | [] => false
  | .state _ st :: _ => st = .open
  | _ :: past => socketOpen past

/-- Whether a transport episode is open, and since when the socket has been healthy in it. -/
structure Health where
  episode : Bool
  since : Option ℕ
  deriving DecidableEq

/-- What a call reports: a connect, a reconnect or a transport error opens an episode, and in an
    episode the socket is healthy from when it is reported open. A server error on an open socket
    lets the time begin anew. -/
def Health.observe (socket : Bool) (h : Health) : Event → Health
  | .state _ .connecting => ⟨true, h.since⟩
  | .state _ .reconnecting => ⟨true, none⟩
  | .state _ .closed => ⟨h.episode, none⟩
  | .state nowMs .open => ⟨h.episode, if h.episode then some nowMs else h.since⟩
  | .error nowMs err =>
    if err.errorClass.isTransport then
      ⟨true, if err.errorClass = .server && socket then some nowMs else none⟩
    else if err.errorClass.isPressure then ⟨h.episode, none⟩
    else h
  | .confirmedFinal _ | .tick _ _ => h

variable (limits : HandoffLimits)

/-- The call shows the cloud leg to be healthy again: a confirmed final, or an error or a tick
    that finds the socket healthy for the configured time. -/
def Health.recovers (h : Health) : Event → Bool
  | .confirmedFinal _ => true
  | .error nowMs _ | .tick nowMs _ =>
    h.since.any (fun since => limits.healthyOpenMs ≤ nowMs - since)
  | .state _ _ => false

/-- The health that a history shows; a recovery ends the episode. -/
def health : List Event → Health
  | [] => ⟨false, none⟩
  | ev :: past =>
    let seen := (health past).observe (socketOpen past) ev
    if seen.recovers limits ev then ⟨false, none⟩ else seen

/-- The call is a recovery after `past`. -/
def recovers (ev : Event) (past : List Event) : Bool :=
  ((health limits past).observe (socketOpen past) ev).recovers limits ev

/-- When a transport problem is reported: a transport error, or a first connect begun. -/
def problemAt : Event → Option ℕ
  | .error nowMs err => if err.errorClass.isTransport then some nowMs else none
  | .state nowMs st => if st = .connecting then some nowMs else none
  | _ => none

/-- When rate or concurrency pressure is reported. -/
def pressureAt : Event → Option ℕ
  | .error nowMs err => if err.errorClass.isPressure then some nowMs else none
  | _ => none

/-- What was reported at `since` still stands: no call from then on is a recovery. -/
def Stands (reportedAt : Event → Option ℕ) (since : ℕ) : List Event → Prop
  | [] => False
  | ev :: past => recovers limits ev past = false ∧
      (reportedAt ev = some since ∨ Stands reportedAt since past)

/-- A reconnect is open after the call, if one was open before as `before` says. -/
def Event.reconnects (before : Bool) : Event → Bool
  | .state _ .reconnecting => true
  | .error _ err => !err.errorClass.isTransport && before
  | _ => before

/-- The call makes the open reconnect fail. -/
def Event.failsReconnect (before : Bool) : Event → Bool
  | .error _ err => err.errorClass.isTransport && before
  | _ => false

/-- A reconnect was begun since the last recovery and has not failed yet. -/
def reconnecting : List Event → Bool
  | [] => false
  | ev :: past => !recovers limits ev past && ev.reconnects (reconnecting past)

/-- How many reconnects failed since the last recovery. -/
def reconnectsFailed : List Event → ℕ
  | [] => 0
  | ev :: past =>
    if recovers limits ev past then 0
    else reconnectsFailed past + (ev.failsReconnect (reconnecting limits past)).toNat

/-- The voiced samples counted at the last confirmed final. -/
def voicedAtFinal : List Event → ℕ
  | [] => 0
  | .confirmedFinal voicedSamples :: _ => voicedSamples
  | _ :: past => voicedAtFinal past

/-- The speech a call reports beyond the last confirmed final. -/
def newSpeech : Event → List Event → ℕ
  | .tick _ voicedSamples, past => voicedSamples - voicedAtFinal past
  | _, _ => 0

variable (ev : Event) (past : List Event)

/-- At `ev` a transport problem has stood unrecovered for the whole retry time. -/
def RetryTimeUsed : Prop :=
  ∃ nowMs since, ev.nowMs = some nowMs ∧ Stands limits problemAt since (ev :: past) ∧
    limits.retryBudgetMs ≤ nowMs - since

/-- The transport budget is used up at `ev`: the whole retry time, or a reconnect fails and with
    it the last of the allowed cycles. -/
def BudgetUsed : Prop :=
  RetryTimeUsed limits ev past ∨
    ev.failsReconnect (reconnecting limits past) = true ∧
      limits.failedCycles ≤ reconnectsFailed limits past + 1

/-- The provider asks for a wait that goes beyond the budget of the pressure that stands since
    `since`, or beyond the retry time of a transport problem that stands too. -/
def WaitsTooLong (since : ℕ) : Prop :=
  ∃ nowMs err wait, ev = .error nowMs err ∧ err.retryAfterMs = some wait ∧
    (min limits.ratePressureBudgetMs limits.retryBudgetMs < nowMs - since + wait ∨
      ∃ start, Stands limits problemAt start (ev :: past) ∧
        limits.retryBudgetMs < nowMs - start + wait)

/-- The budget for rate pressure is used up at `ev`: pressure stands, and has stood for all of
    its budget, or a transport problem for the whole retry time, or the wait is too long. -/
def PressureUsed : Prop :=
  ∃ since, Stands limits pressureAt since (ev :: past) ∧
    ((∃ nowMs, ev.nowMs = some nowMs ∧
        min limits.ratePressureBudgetMs limits.retryBudgetMs ≤ nowMs - since) ∨
      RetryTimeUsed limits ev past ∨ WaitsTooLong limits ev past since)

/-- What has to have happened for a call to decide a switch. -/
def Earned : SwitchReason → Prop
  | .auth => ∃ nowMs err, ev = .error nowMs err ∧ err.errorClass = .auth
  | .quota => ∃ nowMs err, ev = .error nowMs err ∧ err.errorClass = .quota
  | .transportBudget => BudgetUsed limits ev past
  | .rateLimitBudget => PressureUsed limits ev past
  | .speechStall => limits.speechSamplesWithoutFinal ≤ newSpeech ev past
  | .manual | .resumePending | .finishingTail => False

/-- A session-limit notice, or a tick that reports no speech since the last final. -/
def Silent : Event → List Event → Prop
  | .error _ err, _ => err.errorClass = .sessionLimit
  | .tick _ voicedSamples, past => voicedSamples ≤ voicedAtFinal past
  | _, _ => False

/-! ## Decisions stick -/

variable {p : HandoffPolicy}

theorem tick_decided (h : p.decision ≠ .keepCloud) (nowMs voiced : ℕ) :
    p.tick nowMs voiced = (p.decision, p) := if_pos h

theorem tick_open (h : p.decision = .keepCloud) (nowMs voiced : ℕ) :
    p.tick nowMs voiced = ((p.settle nowMs).verdict nowMs voiced,
      { p.settle nowMs with decision := (p.settle nowMs).verdict nowMs voiced }) :=
  if_neg (not_not.mpr h)

theorem error_decided (h : p.decision ≠ .keepCloud) (nowMs : ℕ) (err : SttError) :
    p.error nowMs err = (p.decision, p) := if_pos h

theorem error_open (h : p.decision = .keepCloud) (nowMs : ℕ) (err : SttError) : p.error nowMs err =
      (p.observe nowMs err).tick nowMs (p.observe nowMs err).speechAtFinal :=
  if_neg (not_not.mpr h)

open HandoffPolicy SttErrorClass

theorem state_open (h : p.decision = .keepCloud) (nowMs : ℕ) (st : StreamState) :
    (p.state nowMs st).decision = .keepCloud := by
  unfold state
  rw [if_neg (not_not.mpr h)]
  cases st with
  | «open» =>
    show (if _ then _ else _ : HandoffPolicy).decision = _
    split <;> exact h
  | _ => exact h

theorem confirmedFinal_open (h : p.decision = .keepCloud) (voiced : ℕ) :
    p.confirmedFinal voiced = { p with speechAtFinal := voiced }.recovered := if_neg (not_not.mpr h)

/-- A decided policy is left as it is by every call. -/
theorem step_decided (h : p.decision ≠ .keepCloud) (ev : Event) : (p.step ev).2 = p := by
  cases ev with
  | error nowMs err => exact congrArg Prod.snd (error_decided h nowMs err)
  | state | confirmedFinal => exact if_pos h
  | tick nowMs voiced => exact congrArg Prod.snd (tick_decided h nowMs voiced)

theorem tick_reports (p : HandoffPolicy) (nowMs voiced : ℕ) :
    (p.tick nowMs voiced).1 = (p.tick nowMs voiced).2.decision := by
  by_cases h : p.decision = .keepCloud
  · rw [tick_open h]
  · rw [tick_decided h]

theorem error_reports (p : HandoffPolicy) (nowMs : ℕ) (err : SttError) :
    (p.error nowMs err).1 = (p.error nowMs err).2.decision := by
  by_cases h : p.decision = .keepCloud
  · rw [error_open h]
    exact tick_reports _ _ _
  · rw [error_decided h]

variable {ev : Event}

/-- A call that returns a decision returns the one the policy then holds. -/
theorem step_reports {d : Decision} (h : (p.step ev).1 = some d) : d = (p.step ev).2.decision := by
  cases ev with
  | error nowMs err => exact (Option.some.inj h).symm.trans (error_reports p nowMs err)
  | tick nowMs voiced => exact (Option.some.inj h).symm.trans (tick_reports p nowMs voiced)
  | state | confirmedFinal => cases h

/-- A call that decides returns its decision. -/
theorem step_announces (h : p.decision = .keepCloud) (hd : (p.step ev).2.decision ≠ .keepCloud) :
    (p.step ev).1 = some (p.step ev).2.decision := by
  cases ev with
  | error nowMs err => exact congrArg some (error_reports p nowMs err)
  | tick nowMs voiced => exact congrArg some (tick_reports p nowMs voiced)
  | state nowMs st => exact (hd (state_open h nowMs st)).elim
  | confirmedFinal voiced =>
    refine (hd ?_).elim
    show (p.confirmedFinal voiced).decision = _
    rw [confirmedFinal_open h]
    exact h

variable {limits : HandoffLimits} {past : List Event}

theorem policyAfter_decided (h : (policyAfter limits past).decision ≠ .keepCloud)
    (later : List Event) : policyAfter limits (later ++ past) = policyAfter limits past := by
  induction later with
  | nil => rfl
  | cons ev later ih =>
    show ((policyAfter limits (later ++ past)).step ev).2 = _
    rw [ih]
    exact step_decided h ev

theorem policyAfter_open_past (h : (policyAfter limits (ev :: past)).decision = .keepCloud) :
    (policyAfter limits past).decision = .keepCloud := by
  by_contra hd
  have hsame := policyAfter_decided hd [ev]
  exact hd (hsame ▸ h)

/-! ## The timers follow the events -/

/-- No transport episode is open and no rate pressure: both budgets are whole again. -/
structure Clear (p : HandoffPolicy) : Prop where
  transport : p.transportSince = none
  pressure : p.pressureSince = none
  recovering : p.recovering = false
  armed : p.cycleArmed = false
  failed : p.failedCycles = 0
  opened : p.openedSince = none

theorem clear_recovered (p : HandoffPolicy) : Clear p.recovered := ⟨rfl, rfl, rfl, rfl, rfl, rfl⟩

/-- What the timers and counters of an undecided policy say about its history. -/
structure Tracks (limits : HandoffLimits) (past : List Event) (p : HandoffPolicy) : Prop where
  limits_eq : p.limits = limits
  socket : p.lastState = some .open ↔ socketOpen past = true
  health : health limits past = ⟨p.recovering || p.transportSince.isSome, p.openedSince⟩
  transport : ∀ since, p.transportSince = some since → Stands limits problemAt since past
  pressure : ∀ since, p.pressureSince = some since → Stands limits pressureAt since past
  armed : p.cycleArmed = true → reconnecting limits past = true
  failed : p.failedCycles ≤ reconnectsFailed limits past
  speech : p.speechAtFinal = voicedAtFinal past

/-- The same after `ev`, before it is known whether the call is a recovery. -/
structure Observes (limits : HandoffLimits) (ev : Event) (past : List Event) (p : HandoffPolicy) :
    Prop where
  limits_eq : p.limits = limits
  socket : p.lastState = some .open ↔ socketOpen (ev :: past) = true
  health : (health limits past).observe (socketOpen past) ev =
    ⟨p.recovering || p.transportSince.isSome, p.openedSince⟩
  transport : ∀ since, p.transportSince = some since →
    problemAt ev = some since ∨ Stands limits problemAt since past
  pressure : ∀ since, p.pressureSince = some since →
    pressureAt ev = some since ∨ Stands limits pressureAt since past
  armed : p.cycleArmed = true → ev.reconnects (reconnecting limits past) = true
  failed : p.failedCycles ≤
    reconnectsFailed limits past + (ev.failsReconnect (reconnecting limits past)).toNat
  speech : p.speechAtFinal = voicedAtFinal (ev :: past)

theorem tracks_new (limits : HandoffLimits) : Tracks limits [] (.new limits) where
  limits_eq := rfl
  socket := ⟨nofun, nofun⟩
  health := rfl
  transport := nofun
  pressure := nofun
  armed := nofun
  failed := le_rfl
  speech := rfl

theorem Tracks.withDecision (h : Tracks limits past p) (d : Decision) :
    Tracks limits past { p with decision := d } :=
  { h with }

variable {nowMs : ℕ} {voiced : ℕ}

section
variable (h : Observes limits ev past p)
include h

theorem Observes.withDecision (d : Decision) : Observes limits ev past { p with decision := d } :=
  { h with }

/-- Where the call is no recovery, nothing that stood before it is forgotten. -/
theorem Observes.unrecovered (hrec : recovers limits ev past = false) :
    Tracks limits (ev :: past) p where
  limits_eq := h.limits_eq
  socket := h.socket
  health := (if_neg (Bool.not_eq_true _ ▸ hrec)).trans h.health
  transport since hs := ⟨hrec, h.transport since hs⟩
  pressure since hs := ⟨hrec, h.pressure since hs⟩
  armed ha := by
    simp only [reconnecting, hrec, h.armed ha]
    rfl
  failed := by
    simp only [reconnectsFailed, hrec]
    exact h.failed
  speech := h.speech

/-- A recovery leaves nothing to be told from the history but the socket and the speech. -/
theorem Observes.recovered (hrec : recovers limits ev past = true) :
    Tracks limits (ev :: past) p.recovered where
  limits_eq := h.limits_eq
  socket := h.socket
  health := if_pos hrec
  transport := nofun
  pressure := nofun
  armed := nofun
  failed := Nat.zero_le _
  speech := h.speech

/-- The first step of the closing `tick` finds a recovery exactly where the events show one. -/
theorem Observes.settle_eq (hev : ∀ seen : Health, seen.recovers limits ev =
      seen.since.any (fun since => limits.healthyOpenMs ≤ nowMs - since)) :
    p.settle nowMs = if recovers limits ev past then p.recovered else p := by
  unfold settle recovers
  rw [hev, h.health, h.limits_eq]

theorem Observes.settle (hev : ∀ seen : Health, seen.recovers limits ev =
      seen.since.any (fun since => limits.healthyOpenMs ≤ nowMs - since)) :
    Tracks limits (ev :: past) (p.settle nowMs) := by
  rw [h.settle_eq hev]
  split
  · next hrec => exact h.recovered hrec
  · next hrec => exact h.unrecovered (Bool.not_eq_true _ ▸ hrec)

end

theorem settle_frame (p : HandoffPolicy) (nowMs : ℕ) :
    (p.settle nowMs).decision = p.decision ∧ (p.settle nowMs).speechAtFinal = p.speechAtFinal := by
  unfold settle
  split <;> exact ⟨rfl, rfl⟩

/-! ## One call -/

/-- What a policy is timing after a report was timed before it, or begins with it. -/
theorem getD_reported {timer : Option ℕ} {reportedAt : Event → Option ℕ}
    (htimer : ∀ since, timer = some since → Stands limits reportedAt since past)
    (hev : reportedAt ev = some nowMs) (since : ℕ) (hs : some (timer.getD nowMs) = some since) :
    reportedAt ev = some since ∨ Stands limits reportedAt since past := by
  cases timer with
  | none => exact .inl (hev.trans hs)
  | some start => exact .inr (htimer since hs)

/-- A wait beyond what is left goes beyond one of the two budgets. With no transport problem the
    retry time is whole, and the pressure's budget is no longer than it. -/
theorem pressureRemaining_lt {since wait : ℕ} {err : SttError}
    (h : Observes limits (.error nowMs err) past p)
    (hrec : recovers limits (.error nowMs err) past = false) (hp : p.pressureSince = some since)
    (hlong : p.pressureRemaining nowMs < wait) :
    min limits.ratePressureBudgetMs limits.retryBudgetMs < nowMs - since + wait ∨
      ∃ start, Stands limits problemAt start (.error nowMs err :: past) ∧
        limits.retryBudgetMs < nowMs - start + wait := by
  simp only [pressureRemaining, h.limits_eq, hp, Option.elim_some] at hlong
  cases ht : p.transportSince with
  | none =>
    rw [ht, Option.elim_none] at hlong
    left
    omega
  | some start =>
    rw [ht, Option.elim_some] at hlong
    rcases min_lt_iff.mp hlong with hpressure | htransport
    · left
      omega
    · exact .inr ⟨start, ⟨hrec, h.transport start ht⟩, by omega⟩

section
variable (h : Tracks limits past p)
include h

theorem Tracks.confirmedFinal (voiced : ℕ) :
    Tracks limits (.confirmedFinal voiced :: past)
      { p with speechAtFinal := voiced }.recovered where
  limits_eq := h.limits_eq
  socket := h.socket
  health := rfl
  transport := nofun
  pressure := nofun
  armed := nofun
  failed := Nat.zero_le _
  speech := rfl

theorem Tracks.tick (nowMs voiced : ℕ) : Observes limits (.tick nowMs voiced) past p where
  limits_eq := h.limits_eq
  socket := h.socket
  health := h.health
  transport since hs := .inr (h.transport since hs)
  pressure since hs := .inr (h.pressure since hs)
  armed := h.armed
  failed := h.failed
  speech := h.speech

theorem Tracks.state (hopen : p.decision = .keepCloud) (nowMs : ℕ) (st : StreamState) :
    Observes limits (.state nowMs st) past (p.state nowMs st) := by
  unfold HandoffPolicy.state
  rw [if_neg (not_not.mpr hopen)]
  have hkept : Observes limits (.state nowMs .closed) past
      { p with lastState := some .closed, openedSince := none } :=
    { limits_eq := h.limits_eq
      socket := ⟨nofun, nofun⟩
      health := by rw [h.health]; rfl
      transport := fun since hs => .inr (h.transport since hs)
      pressure := fun since hs => .inr (h.pressure since hs)
      armed := h.armed
      failed := h.failed
      speech := h.speech }
  cases st with
  | closed => exact hkept
  | reconnecting =>
    exact { hkept with
      socket := ⟨nofun, nofun⟩
      health := rfl
      armed := fun _ => rfl }
  | connecting =>
    exact { hkept with
      socket := ⟨nofun, nofun⟩
      health := by
        simp only [h.health, Health.observe, Option.isSome_some, Bool.or_true]
      transport := getD_reported h.transport rfl }
  | «open» =>
    show Observes _ _ _ (if p.recovering || p.transportSince.isSome then _ else _)
    split
    · next hbusy =>
      exact { hkept with
        socket := ⟨fun _ => rfl, fun _ => rfl⟩
        health := by simp only [h.health, Health.observe, hbusy, if_true] }
    · next hidle =>
      exact { hkept with
        socket := ⟨fun _ => rfl, fun _ => rfl⟩
        health := by simp only [h.health, Health.observe, hidle]; rfl }

/-- A transport error is tracked, and decides only where the last allowed reconnect fails. -/
theorem Tracks.transportError (nowMs : ℕ) (err : SttError) (server : Bool)
    (hclass : err.errorClass = if server then .server else .network) :
    Observes limits (.error nowMs err) past (p.transportError nowMs server) ∧
      ((p.transportError nowMs server).decision = p.decision ∨
        (p.transportError nowMs server).decision = .switch .transportBudget ∧
          BudgetUsed limits (.error nowMs err) past) := by
  have htransport : err.errorClass.isTransport = true := by
    rw [hclass]
    cases server <;> rfl
  have hserver : decide (err.errorClass = .server) = server := by
    rw [hclass]
    cases server <;> rfl
  have hsocket : socketOpen past = decide (p.lastState = some .open) := by
    rw [Bool.eq_iff_iff, decide_eq_true_eq]
    exact h.socket.symm
  have hfails : Event.failsReconnect (reconnecting limits past) (.error nowMs err) =
      reconnecting limits past := by
    simp [Event.failsReconnect, htransport]
  have htimed : Observes limits (.error nowMs err) past
      { p with
        openedSince := if server && p.lastState = some StreamState.open then some nowMs else none
        transportSince := some (p.transportSince.getD nowMs)
        cycleArmed := false } :=
    { limits_eq := h.limits_eq
      socket := h.socket
      health := by simp [Health.observe, htransport, hserver, hsocket]
      transport := getD_reported h.transport (if_pos htransport)
      pressure := fun since hs => .inr (h.pressure since hs)
      armed := nofun
      failed := le_trans h.failed (Nat.le_add_right _ _)
      speech := h.speech }
  unfold HandoffPolicy.transportError
  dsimp only
  split
  · next harmed =>
    have hreconnect := h.armed harmed
    have hcount : min (p.failedCycles + 1) u32Max ≤ reconnectsFailed limits past + 1 :=
      le_trans (Nat.min_le_left _ _) (Nat.succ_le_succ h.failed)
    constructor
    · refine { htimed with failed := ?_ }
      rw [hfails, hreconnect]
      exact hcount
    · by_cases hlimit : p.limits.failedCycles ≤ min (p.failedCycles + 1) u32Max
      · refine .inr ⟨if_pos hlimit, .inr ⟨hfails.trans hreconnect, ?_⟩⟩
        rw [← h.limits_eq]
        exact le_trans hlimit (h.limits_eq ▸ hcount)
      · exact .inl (if_neg hlimit)
  · next hidle =>
    exact ⟨{ htimed with armed := fun ha => (hidle ha).elim }, .inl rfl⟩

/-- A pressure error is tracked and is no recovery, and decides only where the wait that the
    provider asks for is too long. -/
theorem Tracks.pressureError (nowMs : ℕ) (err : SttError)
    (hclass : err.errorClass.isPressure = true) :
    Observes limits (.error nowMs err) past (p.pressureError nowMs err.retryAfterMs) ∧
      ((p.pressureError nowMs err.retryAfterMs).decision = p.decision ∨
        (p.pressureError nowMs err.retryAfterMs).decision = .switch .rateLimitBudget ∧
          PressureUsed limits (.error nowMs err) past) := by
  have htransport : err.errorClass.isTransport = false := by
    cases herr : err.errorClass <;> simp_all [SttErrorClass.isPressure, SttErrorClass.isTransport]
  let q := { p with openedSince := none, pressureSince := some (p.pressureSince.getD nowMs) }
  have htimed : Observes limits (.error nowMs err) past q :=
    { limits_eq := h.limits_eq
      socket := h.socket
      health := by simp [Health.observe, htransport, hclass, h.health, q]
      transport := fun since hs => .inr (h.transport since hs)
      pressure := getD_reported h.pressure (if_pos hclass)
      armed := fun ha => by simp [Event.reconnects, htransport, h.armed ha]
      failed := le_trans h.failed (Nat.le_add_right _ _)
      speech := h.speech }
  have hrec : recovers limits (.error nowMs err) past = false := by
    unfold recovers
    rw [htimed.health]
    rfl
  unfold HandoffPolicy.pressureError
  dsimp only
  split
  · next hlong =>
    refine ⟨htimed.withDecision _, .inr ⟨rfl, p.pressureSince.getD nowMs, ⟨hrec, ?_⟩, ?_⟩⟩
    · exact htimed.pressure _ rfl
    · obtain ⟨wait, hwait, hlong⟩ := (Option.any_eq_true _ _).mp hlong
      have hover : q.pressureRemaining nowMs < wait := of_decide_eq_true hlong
      refine .inr (.inr ⟨nowMs, err, wait, rfl, hwait, ?_⟩)
      exact pressureRemaining_lt htimed hrec rfl hover
  · exact ⟨htimed, .inl rfl⟩

end

/-- The branches that close `tick` name a budget the events show to be used up. -/
theorem verdict_earned (h : Tracks limits (ev :: past) p)
    (hopen : p.decision = .keepCloud) (hnow : ev.nowMs = some nowMs)
    (hvoiced : voiced - p.speechAtFinal = newSpeech ev past) {r : SwitchReason}
    (hd : p.verdict nowMs voiced = .switch r) : Earned limits ev past r := by
  have hexpired : p.transportExpired nowMs = true → RetryTimeUsed limits ev past := by
    intro hexp
    obtain ⟨since, hsince, hlong⟩ := (Option.any_eq_true _ _).mp hexp
    rw [h.limits_eq, decide_eq_true_eq] at hlong
    exact ⟨nowMs, since, hnow, h.transport since hsince, hlong⟩
  unfold verdict at hd
  split at hd
  · next hpressed =>
    cases hd
    obtain ⟨hsome, hused⟩ := Bool.and_eq_true_iff.mp hpressed
    obtain ⟨since, hsince⟩ := Option.isSome_iff_exists.mp hsome
    refine ⟨since, h.pressure since hsince, ?_⟩
    rcases Bool.or_eq_true_iff.mp hused with hexp | hexp
    · rw [pressureExpired, hsince, Option.any_some, h.limits_eq, decide_eq_true_eq] at hexp
      exact .inl ⟨nowMs, hnow, hexp⟩
    · exact .inr (.inl (hexpired hexp))
  · split at hd
    · next hexp =>
      cases hd
      exact .inl (hexpired hexp)
    · split at hd
      · next hstall =>
        cases hd
        rw [hvoiced, h.limits_eq] at hstall
        exact hstall
      · rw [hopen] at hd
        cases hd

/-- What one call on an undecided policy does: it goes on tracking the events, with nothing left
    of a problem after a recovery, or it decides, and a switch is earned. -/
structure Sound (limits : HandoffLimits) (ev : Event) (past : List Event) (q : HandoffPolicy) :
    Prop where
  tracks : q.decision = .keepCloud → Tracks limits (ev :: past) q
  clear : q.decision = .keepCloud → recovers limits ev past = true → Clear q
  earned : ∀ r, q.decision = .switch r → Earned limits ev past r

/-- The closing `tick` of a call, run on the policy the call has brought up to date. -/
theorem tick_sound (h : Observes limits ev past p) (hopen : p.decision = .keepCloud)
    (hev : ∀ seen : Health, seen.recovers limits ev =
      seen.since.any (fun since => limits.healthyOpenMs ≤ nowMs - since))
    (hnow : ev.nowMs = some nowMs) (hvoiced : voiced - p.speechAtFinal = newSpeech ev past) :
    Sound limits ev past (p.tick nowMs voiced).2 := by
  rw [tick_open hopen]
  obtain ⟨hdecision, hspeech⟩ := settle_frame p nowMs
  rw [← hspeech] at hvoiced
  have htracks := h.settle hev
  refine ⟨fun _ => htracks.withDecision _, fun _ hrec => ?_,
    fun r hd => verdict_earned htracks (hdecision.trans hopen) hnow hvoiced hd⟩
  rw [h.settle_eq hev, if_pos hrec]
  exact { clear_recovered p with }

/-- A call that decides before its closing `tick`. -/
theorem sound_of_decided (h : p.decision ≠ .keepCloud)
    (hearned : ∀ r, p.decision = .switch r → Earned limits ev past r) :
    Sound limits ev past p :=
  ⟨fun hkeep => (h hkeep).elim, fun hkeep => (h hkeep).elim, hearned⟩

section
variable (h : Tracks limits past p) (hopen : p.decision = .keepCloud)
include h hopen

/-- What `error` makes of the class, before its closing `tick`. -/
theorem observe_sound (nowMs : ℕ) (err : SttError) :
    ((p.observe nowMs err).decision = .keepCloud →
      Observes limits (.error nowMs err) past (p.observe nowMs err)) ∧
    ∀ r, (p.observe nowMs err).decision = .switch r → Earned limits (.error nowMs err) past r := by
  have hkept : ∀ {d : Decision} {r : SwitchReason}, d = p.decision → d ≠ .switch r := by
    intro d r hd hr
    rw [hd, hopen] at hr
    cases hr
  have hdecided : ∀ {q : HandoffPolicy} {reason : SwitchReason},
      Observes limits (.error nowMs err) past q ∧ (q.decision = p.decision ∨
        q.decision = .switch reason ∧ Earned limits (.error nowMs err) past reason) →
      (q.decision = .keepCloud → Observes limits (.error nowMs err) past q) ∧
        ∀ r, q.decision = .switch r → Earned limits (.error nowMs err) past r := by
    rintro q reason ⟨hobserves, hdecision⟩
    refine ⟨fun _ => hobserves, fun r hr => ?_⟩
    rcases hdecision with hd | ⟨hd, hused⟩
    · exact (hkept hd hr).elim
    · cases hd.symm.trans hr
      exact hused
  unfold observe
  cases hclass : err.errorClass with
  | auth | quota =>
    refine ⟨nofun, fun r hr => ?_⟩
    cases hr
    exact ⟨nowMs, err, rfl, hclass⟩
  | rateLimit | concurrency =>
    exact hdecided (h.pressureError nowMs err (hclass ▸ rfl))
  | badRequest | unsupported | audioFormat => exact ⟨nofun, nofun⟩
  | network => exact hdecided (h.transportError nowMs err false hclass)
  | server => exact hdecided (h.transportError nowMs err true hclass)
  | sessionLimit =>
    refine ⟨fun _ => ?_, fun r hr => (hkept rfl hr).elim⟩
    exact
      { limits_eq := h.limits_eq
        socket := h.socket
        health := by simp [Health.observe, hclass, isTransport, isPressure, h.health]
        transport := fun since hs => .inr (h.transport since hs)
        pressure := fun since hs => .inr (h.pressure since hs)
        armed := fun ha => by simp [Event.reconnects, hclass, isTransport, h.armed ha]
        failed := le_trans h.failed (Nat.le_add_right _ _)
        speech := h.speech }

theorem error_sound (nowMs : ℕ) (err : SttError) :
    Sound limits (.error nowMs err) past (p.error nowMs err).2 := by
  rw [error_open hopen]
  obtain ⟨hobserves, hearned⟩ := observe_sound h hopen nowMs err
  by_cases hkeep : (p.observe nowMs err).decision = .keepCloud
  · exact tick_sound (hobserves hkeep) hkeep (fun _ => rfl) rfl (Nat.sub_self _)
  · rw [tick_decided hkeep]
    exact sound_of_decided hkeep hearned

theorem step_sound (ev : Event) : Sound limits ev past (p.step ev).2 := by
  have hkept : ∀ {q : HandoffPolicy} {r : SwitchReason}, q.decision = .keepCloud →
      q.decision ≠ .switch r := by
    intro q r hq hr
    rw [hq] at hr
    cases hr
  cases ev with
  | error nowMs err => exact error_sound h hopen nowMs err
  | state nowMs st =>
    refine ⟨fun _ => (h.state hopen nowMs st).unrecovered rfl, fun _ => nofun, fun r hr => ?_⟩
    exact (hkept (state_open hopen nowMs st) hr).elim
  | confirmedFinal voiced =>
    show Sound _ _ _ (p.confirmedFinal voiced)
    rw [confirmedFinal_open hopen]
    refine ⟨fun _ => h.confirmedFinal voiced, fun _ _ => clear_recovered _, fun r hr => ?_⟩
    exact (hkept (q := { p with speechAtFinal := voiced }.recovered) hopen hr).elim
  | tick nowMs voiced =>
    refine tick_sound (h.tick nowMs voiced) hopen (fun _ => rfl) rfl ?_
    rw [h.speech]
    rfl

end

/-! ## Every history -/

theorem tracks_policyAfter (limits : HandoffLimits) (past : List Event)
    (hopen : (policyAfter limits past).decision = .keepCloud) :
    Tracks limits past (policyAfter limits past) := by
  induction past with
  | nil => exact tracks_new limits
  | cons ev past ih =>
    have hpast := policyAfter_open_past hopen
    exact (step_sound (ih hpast) hpast ev).tracks hopen

/-- What a silent call finds standing stood before it. -/
theorem Silent.stands {reportedAt : Event → Option ℕ} {since : ℕ} (hsilent : Silent ev past)
    (hreported : reportedAt = problemAt ∨ reportedAt = pressureAt)
    (h : Stands limits reportedAt since (ev :: past)) : Stands limits reportedAt since past := by
  refine h.2.resolve_left ?_
  cases ev with
  | error nowMs err =>
    have hclass : err.errorClass = .sessionLimit := hsilent
    rcases hreported with rfl | rfl
    · simp [problemAt, hclass, isTransport]
    · simp [pressureAt, hclass, isPressure]
  | tick nowMs voiced => rcases hreported with rfl | rfl <;> nofun
  | state | confirmedFinal => exact hsilent.elim

/-- With no transport problem and no rate pressure standing, a session-limit notice or a tick
    without speech is no ground for a switch. -/
theorem silent_not_earned (hspeech : 0 < limits.speechSamplesWithoutFinal)
    (hsilent : Silent ev past) (hproblem : ∀ since, ¬ Stands limits problemAt since past)
    (hpressure : ∀ since, ¬ Stands limits pressureAt since past) (r : SwitchReason) :
    ¬ Earned limits ev past r := by
  have hclass : ∀ nowMs err, ev = .error nowMs err → err.errorClass = .sessionLimit := by
    intro nowMs err hev
    subst hev
    exact hsilent
  intro hearned
  cases r with
  | auth =>
    obtain ⟨_, err, hev, hauth⟩ := hearned
    rw [hclass _ err hev] at hauth
    cases hauth
  | quota =>
    obtain ⟨_, err, hev, hquota⟩ := hearned
    rw [hclass _ err hev] at hquota
    cases hquota
  | transportBudget =>
    rcases hearned with ⟨_, since, -, hstands, -⟩ | ⟨hfails, -⟩
    · exact hproblem since (hsilent.stands (.inl rfl) hstands)
    · cases ev with
      | error nowMs err => simp [Event.failsReconnect, hclass nowMs err rfl, isTransport] at hfails
      | _ => cases hfails
  | rateLimitBudget =>
    obtain ⟨since, hstands, -⟩ := hearned
    exact hpressure since (hsilent.stands (.inr rfl) hstands)
  | speechStall =>
    have hnone : newSpeech ev past = 0 := by
      cases ev with
      | tick nowMs voiced => exact Nat.sub_eq_zero_of_le hsilent
      | _ => rfl
    have hstall : limits.speechSamplesWithoutFinal ≤ newSpeech ev past := hearned
    omega
  | manual | resumePending | finishingTail => exact hearned

/-- A decided policy answers every later call with its decision. -/
theorem decision_reported_again :
    ((policyAfter .default [.error 0 ⟨.auth, none⟩]).step (.tick 1 0)).1 = some (.switch .auth) ∧
      ((policyAfter .default [.tick 1 0, .error 0 ⟨.auth, none⟩]).step (.tick 2 0)).1 =
        some (.switch .auth) := by
  decide

/-- For every history of calls and every next call. A decision made stays, whatever follows,
    and every later call that returns a decision returns that one. On an undecided policy
    the call that decides also returns the decision; a switch is earned, by transport problems
    or rate pressure only where the budget is used up since the last recovery; a recovery that
    decides nothing leaves both budgets whole; and with a positive speech budget, neither a
    session-limit notice nor silence switches while no problem and no pressure stands. -/
theorem switch_final_and_earned (limits : HandoffLimits) (past : List Event) (ev : Event) :
    ((policyAfter limits past).decision ≠ .keepCloud → ∀ later,
      (policyAfter limits (later ++ past)).decision = (policyAfter limits past).decision ∧
      ∀ next d, ((policyAfter limits (later ++ past)).step next).1 = some d →
        d = (policyAfter limits past).decision) ∧
    ((policyAfter limits past).decision = .keepCloud →
      ((policyAfter limits (ev :: past)).decision ≠ .keepCloud →
        ((policyAfter limits past).step ev).1 =
          some (policyAfter limits (ev :: past)).decision) ∧
      (∀ r, (policyAfter limits (ev :: past)).decision = .switch r → Earned limits ev past r) ∧
      ((policyAfter limits (ev :: past)).decision = .keepCloud →
        recovers limits ev past = true → Clear (policyAfter limits (ev :: past))) ∧
      (0 < limits.speechSamplesWithoutFinal → Silent ev past →
        (∀ since, ¬ Stands limits problemAt since past) →
        (∀ since, ¬ Stands limits pressureAt since past) →
        ∀ r, (policyAfter limits (ev :: past)).decision ≠ .switch r)) := by
  constructor
  · intro hd later
    have hsame := policyAfter_decided hd later
    rw [hsame]
    refine ⟨rfl, fun next d hnext => ?_⟩
    rw [step_reports hnext, step_decided hd next]
  · intro hopen
    have hsound := step_sound (tracks_policyAfter limits past hopen) hopen ev
    refine ⟨step_announces hopen, hsound.earned, hsound.clear, ?_⟩
    intro hspeech hsilent hproblem hpressure r hr
    exact silent_not_earned hspeech hsilent hproblem hpressure r (hsound.earned r hr)

/-- A rate limit, then a reconnect whose socket stays healthy: the pressure is over with it. -/
def pressureRecovered : List Event :=
  [.tick 4000 0, .state 2 .open, .state 1 .reconnecting, .error 0 ⟨.rateLimit, none⟩]

/-- A network error that nothing recovers from uses the retry time up at 15 s, and not at
    14.999 s; after a recovery the same silence switches nothing. -/
theorem switch_after_retry_time :
    (policyAfter .default [.tick 14999 0, .error 0 ⟨.network, none⟩]).decision = .keepCloud ∧
      (policyAfter .default [.tick 15000 0, .tick 14999 0, .error 0 ⟨.network, none⟩]).decision =
        .switch .transportBudget ∧
      BudgetUsed .default (.tick 15000 0) [.tick 14999 0, .error 0 ⟨.network, none⟩] ∧
      ∀ r, (policyAfter .default (.tick 15000 0 :: pressureRecovered)).decision ≠ .switch r := by
  refine ⟨by decide, by decide, ?_, ?_⟩
  · exact ((switch_final_and_earned .default [.tick 14999 0, .error 0 ⟨.network, none⟩]
      (.tick 15000 0)).2 (by decide)).2.1 .transportBudget (by decide)
  · have hlast : recovers .default (.tick 4000 0) pressureRecovered.tail = true := by decide
    refine ((switch_final_and_earned .default pressureRecovered (.tick 15000 0)).2
      (by decide)).2.2.2 (by decide) (Nat.zero_le _) ?_ ?_
    · intro since hstands
      exact Bool.false_ne_true (hstands.1.symm.trans hlast)
    · intro since hstands
      exact Bool.false_ne_true (hstands.1.symm.trans hlast)

end FlyOnTheWall.Handoff
