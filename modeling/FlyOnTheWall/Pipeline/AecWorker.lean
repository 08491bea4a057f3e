/-
  The asynchronous echo-cancellation worker (`fotw-pipeline/src/aec_worker.rs`): an owner
  that keeps every accepted microphone sample until it is published, and a thread that owns
  the adapter, joined by two bounded channels, an atomic fence and a liveness flag.

  The model is a transition system. A step of the owner makes at most one access to what the
  two sides share (a channel, the flag, a store to the fence, which only the owner writes),
  so the runs are all interleavings; `Pc` says where in a method the owner is. A step of
  the thread likewise; the adapter calls between two accesses are its own business and are
  those of `Aec.Adapter`. The thread may also die at any point, after which its locals are
  dropped in order: the result sender, the command receiver, and last the liveness flag.

  `jobEpoch`, `activeEpoch`, `Provenance`, `past` and `cur` are not in the source. They
  record for which epoch a result was computed, who published an interval, and what was
  accepted; no step depends on them. `Drop` of the owner is left out: nothing is published
  after it.
-/
import FlyOnTheWall.Lib.Run
import FlyOnTheWall.Pipeline.Aec

namespace FlyOnTheWall.AecWorker

open FlyOnTheWall.Lib
open FlyOnTheWall.Aec (Sample Backend Adapter BypassReason OutputKind Output)

structure Config where
  adapter : Aec.Config
  queuedBlocks : ℕ
  blockSamples : ℕ
  pendingSamples : ℕ
  deadlineMs : ℕ
  deriving DecidableEq, Repr

inductive Error where
  | config
  | input
  | clock
  deriving DecidableEq, Repr

variable (α : Type)

structure Input where
  fence : ℕ
  start : ℕ
  mic : List α
  reference : Option (List α)
  jobEpoch : ℕ

inductive Command where
  | input (job : Input α)
  | finish

structure ResultBlock where
  fence : ℕ
  blocks : List (Output α)
  jobEpoch : ℕ

/-- Original samples the owner still has to publish; the first `used` are published. -/
structure Pending where
  start : ℕ
  samples : List α
  used : ℕ
  acceptedMs : ℕ

structure Offered where
  epoch : ℕ
  start : ℕ
  mic : List α
  reference : Option (List α)

/-- Who published an interval: the owner from its own copy, or a result computed under
    `fence` for `jobEpoch` and taken while the fence was `fenceNow`. -/
inductive Provenance where
  | owner
  | worker (fence fenceNow jobEpoch : ℕ)
  deriving DecidableEq, Repr

structure Entry where
  output : Output α
  source : Provenance

/-- What a method does once its `poll` returns. -/
inductive After where
  | poll
  | submit (offered : Offered α) (nowMs : ℕ) (deferWhenFull : Bool)
  | finish

/-- Where the owner is. -/
inductive Pc (α : Type) where
  | idle (returned : Option (Except Error Bool))
  /-- In the loop of `poll`, with `left` passes to go. -/
  | polling (left : ℕ) (next : After α)
  /-- About to run `fallback`, and then to drop the command sender if `take`. -/
  | falling (reason : BypassReason) (take : Bool) (next : Pc α)
  /-- About to look at the liveness flag. -/
  | checking (offered : Offered α) (nowMs : ℕ) (deferWhenFull : Bool)
  /-- About to send the block to the thread. -/
  | sending (offered : Offered α) (nowMs : ℕ) (deferWhenFull : Bool)
  | sendingFinish
  | resetting (epoch start : ℕ)
  | cancelling

/-- Where the thread is. -/
inductive Phase where
  | waiting
  | received (command : Command α)
  /-- In `publish`, about to look at the fence. -/
  | publishing (result : ResultBlock α)
  /-- In `publish`, about to send. -/
  | offering (result : ResultBlock α)
  | leaving
  | outputDropped
  | inputDropped
  | gone

structure System (α β : Type) where
  config : Config
  -- the owner
  epoch : ℕ
  next : ℕ
  commands : Bool
  pending : List (Pending α)
  retained : ℕ
  now : ℕ
  closed : Bool
  pc : Pc α
  -- shared
  fence : ℕ
  queue : List (Command α)
  results : List (ResultBlock α)
  inputAlive : Bool
  outputAlive : Bool
  running : Bool
  -- the thread
  phase : Phase α
  active : ℕ
  activeEpoch : ℕ
  adapter : Adapter α β
  -- the record
  published : List (Entry α)
  past : List (Take α)
  cur : Take α

inductive Call where
  | submit (offered : Offered α) (nowMs : ℕ)
  | trySubmit (offered : Offered α) (nowMs : ℕ)
  | poll (nowMs : ℕ)
  | reset (epoch start : ℕ)
  | finish (nowMs : ℕ)
  | cancel

inductive Event where
  | call (call : Call α)
  | owner
  | thread
  | die

namespace System

variable {α β : Type} [Sample α] (B : Backend α β)

def new (backend : β) (config : Config) (epoch start : ℕ) : Except Error (System α β) :=
  if ¬(1 ≤ config.queuedBlocks ∧ config.queuedBlocks ≤ 16) ∨
      ¬(1 ≤ config.blockSamples ∧ config.blockSamples ≤ 3200) ∨
      config.pendingSamples < config.blockSamples ∨ 16000 < config.pendingSamples ∨
      ¬(1 ≤ config.deadlineMs ∧ config.deadlineMs ≤ 5000) then .error .config
  else
    match Adapter.new B backend config.adapter 1 start with
    | .error _ => .error .config
    | .ok adapter =>
      .ok
        { config
          epoch
          next := start
          commands := true
          pending := []
          retained := 0
          now := 0
          closed := false
          pc := .idle none
          fence := 1
          queue := []
          results := []
          inputAlive := true
          outputAlive := true
          running := true
          phase := .waiting
          active := 1
          activeEpoch := epoch
          adapter
          published := []
          past := []
          cur := ⟨epoch, start, []⟩ }

/-! ## The owner -/

variable (s : System α β)

/-- Everything pending goes out as it was recorded, and every result in flight is fenced. -/
def fallback (reason : BypassReason) : System α β :=
  let s :=
    if s.fence < u64Max then { s with fence := s.fence + 1 }
    -- zero is never an admitted generation
    else { s with fence := 0, commands := false, closed := true }
  { s with
    published := s.published ++ s.pending.map fun p =>
      ⟨⟨s.epoch, p.start + p.used, p.samples.drop p.used, .raw reason⟩, .owner⟩
    pending := []
    retained := 0 }

/-- The loop of `accept`: use up the first `remaining` pending samples. -/
def consume : ℕ → List (Pending α) → List (Pending α)
  | _, [] => []
  | remaining, front :: rest =>
    if remaining = 0 then front :: rest
    else
      let n := min remaining (front.samples.length - front.used)
      if front.used + n = front.samples.length then consume (remaining - n) rest
      else { front with used := front.used + n } :: rest

def accept (block : Output α) : Option (System α β) :=
  match s.pending with
  | [] => none
  | front :: _ =>
    if block.startSample ≠ front.start + front.used ∨ s.retained < block.samples.length ∨
        block.samples = [] then none
    else
      some { s with
        pending := consume block.samples.length s.pending
        retained := s.retained - block.samples.length }

/-- Publish the blocks of a result in order; `false` if one of them does not fit. -/
def acceptAll (result : ResultBlock α) : List (Output α) → System α β → System α β × Bool
  | [], s => (s, true)
  | block :: blocks, s =>
    match s.accept block with
    | none => (s, false)
    | some t =>
      acceptAll result blocks { t with
        published := t.published ++
          [⟨{ block with epoch := t.epoch }, .worker result.fence t.fence result.jobEpoch⟩] }

/-- The method returns. -/
def ret (r : Except Error Bool) : System α β := { s with pc := .idle (some r) }

/-- The start of `poll`: the clock, and the deadline of the oldest pending block. -/
def startPoll (nowMs : ℕ) (next : After α) : System α β :=
  if nowMs < s.now then s.ret (.error .clock)
  else
    let s := { s with now := nowMs }
    let polling := Pc.polling (s.config.queuedBlocks + 1) next
    match s.pending.head? with
    | none => { s with pc := polling }
    | some front =>
      if s.config.deadlineMs ≤ nowMs - front.acceptedMs then
        { s with pc := .falling .workerDeadline false polling }
      else { s with pc := polling }

/-- The rest of the method after its `poll`, up to the next shared access. -/
def afterPoll : After α → System α β
  | .poll => s.ret (.ok true)
  | .submit offered nowMs deferWhenFull =>
    if offered.mic = [] then s.ret (.ok true)
    else if s.config.pendingSamples < s.retained + offered.mic.length then
      if deferWhenFull then s.ret (.ok false)
      else { s with pc := .falling .workerBusy false (.checking offered nowMs deferWhenFull) }
    else { s with pc := .checking offered nowMs deferWhenFull }
  | .finish =>
    if s.closed then s.ret (.ok true)
    else if s.commands then { s with closed := true, pc := .sendingFinish }
    else { s with closed := true, pc := .idle (some (.ok true)) }

variable (offered : Offered α)

def admissible : Bool :=
  !s.closed && offered.epoch == s.epoch && offered.start == s.next &&
    decide (offered.mic.length ≤ s.config.blockSamples) &&
    decide (offered.start + offered.mic.length ≤ u64Max) &&
    offered.mic.all Sample.isFinite &&
    (match offered.reference with
      | none => true
      | some r => r.length == offered.mic.length && r.all Sample.isFinite)

/-- A method is called. -/
def enter : Call α → System α β
  | .submit offered nowMs =>
    if s.admissible offered then s.startPoll nowMs (.submit offered nowMs false)
    else s.ret (.error .input)
  | .trySubmit offered nowMs =>
    if s.admissible offered then s.startPoll nowMs (.submit offered nowMs true)
    else s.ret (.error .input)
  | .poll nowMs => s.startPoll nowMs .poll
  | .reset epoch start =>
    if s.closed = true ∨ epoch ≤ s.epoch then s.ret (.error .input)
    else { s with pc := .falling .reset false (.resetting epoch start) }
  | .finish nowMs => s.startPoll nowMs .finish
  | .cancel => { s with pc := .falling .workerCancelled false .cancelling }

/-- One pass of the loop of `poll`. -/
def pollOnce (left : ℕ) (next : After α) : System α β :=
  match s.results with
  | result :: rest =>
    let s := { s with results := rest, pc := .polling left next }
    if result.fence ≠ s.fence then s
    else
      let r := acceptAll result result.blocks s
      if r.2 then r.1
      else { r.1 with pc := .falling .backendFailed true (.polling left next) }
  | [] =>
    if s.outputAlive then s.afterPoll next
    -- after the fallback the loop is over
    else { s with pc := .falling .backendFailed true (.polling 0 next) }

/-- The offered samples are accepted. -/
def acceptOffered : System α β :=
  { s with
    next := s.next + offered.mic.length
    cur := { s.cur with accepted := s.cur.accepted ++ offered.mic } }

def hold (nowMs : ℕ) : System α β :=
  { s.acceptOffered offered with
    pending := s.pending ++ [⟨offered.start, offered.mic, 0, nowMs⟩]
    retained := s.retained + offered.mic.length }

/-- The block goes to the thread, or is refused by a full or a dropped channel. -/
def send (nowMs : ℕ) (deferWhenFull : Bool) : System α β :=
  if s.inputAlive = false then
    { s.hold offered nowMs with pc := .falling .backendFailed true (.idle (some (.ok true))) }
  else if s.config.queuedBlocks ≤ s.queue.length then
    if deferWhenFull then s.ret (.ok false)
    else
      { s.hold offered nowMs with pc := .falling .workerBusy false (.idle (some (.ok true))) }
  else
    { s.hold offered nowMs with
      queue := s.queue ++
        [.input ⟨s.fence, offered.start, offered.mic, offered.reference, s.epoch⟩]
      pc := .idle (some (.ok true)) }

/-- With no thread to send to, the offered block goes straight out. -/
def publishOffered : System α β :=
  { s.acceptOffered offered with
    published := s.published ++
      [⟨⟨s.epoch, offered.start, offered.mic, .raw .backendFailed⟩, .owner⟩]
    pc := .idle (some (.ok true)) }

def ownerStep : Option (System α β) :=
  match s.pc with
  | .idle _ => none
  | .polling 0 next => some (s.afterPoll next)
  | .polling (left + 1) next => some (s.pollOnce left next)
  | .falling reason take next =>
    let t := s.fallback reason
    some { t with commands := t.commands && !take, pc := next }
  | .checking offered nowMs deferWhenFull =>
    if s.commands = false ∨ s.running = false then some (s.publishOffered offered)
    else some { s with pc := .sending offered nowMs deferWhenFull }
  | .sending offered nowMs deferWhenFull => some (s.send offered nowMs deferWhenFull)
  | .sendingFinish =>
    let t := { s with commands := false }
    if s.inputAlive = false ∨ s.config.queuedBlocks ≤ s.queue.length then
      some { t with pc := .falling .workerBusy false (.idle (some (.ok true))) }
    else some { t with queue := s.queue ++ [.finish], pc := .idle (some (.ok true)) }
  | .resetting epoch start =>
    some { s with
      epoch
      next := start
      past := s.past ++ [s.cur]
      cur := ⟨epoch, start, []⟩
      pc := .idle (some (.ok true)) }
  | .cancelling =>
    some { s with closed := true, commands := false, pc := .idle (some (.ok true)) }

/-! ## The thread -/

/-- The adapter calls of one input, `none` where the thread returns. -/
def runJob (active : ℕ) (adapter : Adapter α β) (job : Input α) :
    Option (Adapter α β × List (Output α)) :=
  let rendered : Option (Adapter α β × List (Output α)) :=
    match job.reference with
    | none => some (adapter, [])
    | some reference =>
      match adapter.pushRender B active job.start reference [] with
      | (r, .ok _) => some r
      | (_, .error _) => none
  match rendered with
  | none => none
  | some (adapter, blocks) =>
    match adapter.pushCapture B active job.start job.mic blocks with
    | (_, .error _) => none
    | ((adapter, blocks), .ok _) =>
      if job.reference.isNone then some (adapter.flushReferenceWait B blocks)
      else some (adapter, blocks)

/-- An adapter on the generation of the fence. -/
def freshAdapter (start : ℕ) : Option (Adapter α β) :=
  if s.active ≠ s.fence then
    match s.adapter.reset B s.fence start [] with
    | (r, .ok _) => some r.1
    | (_, .error _) => none
  else some s.adapter

/-- What the thread does with blocks it computed under `s.active`. -/
def deliver (blocks : List (Output α)) : System α β :=
  if blocks = [] then { s with phase := .waiting }
  else { s with phase := .publishing ⟨s.active, blocks, s.activeEpoch⟩ }

def perform : Command α → System α β
  | .input job =>
    if job.fence ≠ s.fence then { s with phase := .waiting }
    else
      match s.freshAdapter B job.start with
      | none => { s with phase := .leaving }
      | some adapter =>
        match runJob B s.fence adapter job with
        | none => { s with phase := .leaving }
        | some (adapter, blocks) =>
          { s with adapter, active := s.fence, activeEpoch := job.jobEpoch }.deliver
            blocks
  | .finish =>
    if s.active = s.fence then
      let r := s.adapter.finish B []
      { s with adapter := r.1 }.deliver r.2
    else { s with phase := .waiting }

def threadStep : Option (System α β) :=
  match s.phase with
  | .waiting =>
    match s.queue with
    | command :: rest => some { s with queue := rest, phase := .received command }
    | [] => if s.commands then none else some { s with phase := .leaving }
  | .received command => some (s.perform B command)
  | .publishing result =>
    if result.fence ≠ s.fence then some { s with phase := .waiting }
    else some { s with phase := .offering result }
  | .offering result =>
    if s.config.queuedBlocks + 1 ≤ s.results.length then
      some { s with phase := .publishing result }
    else some { s with results := s.results ++ [result], phase := .waiting }
  | .leaving => some { s with outputAlive := false, phase := .outputDropped }
  | .outputDropped => some { s with inputAlive := false, queue := [], phase := .inputDropped }
  | .inputDropped => some { s with running := false, phase := .gone }
  | .gone => none

/-- The thread stops where it is. -/
def die : Option (System α β) :=
  match s.phase with
  | .leaving | .outputDropped | .inputDropped | .gone => none
  | _ => some { s with phase := .leaving }

def step : Event α → Option (System α β)
  | .call call =>
    match s.pc with
    | .idle _ => some (s.enter call)
    | _ => none
  | .owner => s.ownerStep
  | .thread => s.threadStep B
  | .die => s.die

end System

end FlyOnTheWall.AecWorker
