/-
  A proof outline of the worker's loop.

  An `Outline` names what holds between two operations of the worker, on a source that has
  gone local, once the source has decided to end, and at its ends, and proves each primitive
  of the worker against these assertions. The rules below compose the primitives as the loop
  does, so that a property of the source is one outline and not one proof of every procedure.
-/
import FlyOnTheWall.Failover.Stream

namespace FlyOnTheWall.Stream

open Lib Replay Coverage Endpoint Handoff Triple

variable {S : Setup}

/-- What a move of the others leaves of the worker's side. -/
structure Foreign (w v : World S) : Prop where
  journal : v.journal = w.journal
  cloud : v.cloud.isSome = w.cloud.isSome
  localCursor : v.localCursor = w.localCursor
  localBase : v.localBase = w.localBase
  localEndpoint : v.localEndpoint = w.localEndpoint
  minted : v.minted = w.minted

theorem Foreign.refl (w : World S) : Foreign w w := ⟨rfl, rfl, rfl, rfl, rfl, rfl⟩

/-- Everything but the gate, the events and the worker's timers is as it was. -/
structure Apart (w v : World S) : Prop extends Foreign w v where
  stream : v.stream = w.stream
  reader : v.reader = w.reader
  inbox : v.inbox ⊆ w.inbox

/-- A step that only moves the worker's own cursors, timers and policy, or takes events out of
    the provider's queue. -/
structure Private (w v : World S) : Prop extends Apart w v where
  endSample : v.endSample = w.endSample
  stopRequested : v.stopRequested = w.stopRequested
  inputClosed : v.inputClosed = w.inputClosed
  gate : v.gate = w.gate
  events : v.events = w.events

theorem Private.refl (w : World S) : Private w w :=
  ⟨⟨.refl w, rfl, rfl, List.Subset.refl _⟩, rfl, rfl, rfl, rfl, rfl⟩

/-- Steps that read shared state or work on the worker's own. -/
def Label.quiet : Label → Bool
  | .gate | .own | .loadEnd => true
  | _ => false

/-- Events the worker passes on as they come: all but finals and `Closed`. -/
def StreamEvent.free : StreamEvent → Bool
  | .interim _ | .error _ => true
  | .state reached => reached != .closed
  | .final _ => false

/-- How a pass ends: with another pass to come, or with the source at its end. -/
def Control.leaves (between ended : World S → Prop) : Control → World S → Prop
  | .again => between
  | .completed => ended

/-- What holds `between` operations; `online` on a cloud source and `onDevice` on a local one;
    `ending last` once the source has decided to end at `last`; when it has `ended` or
    `failed`. `handed` is what is known of an event of the provider. -/
structure Outline (c : Contract Label (World S)) where
  between : World S → Prop
  online : World S → Prop
  onDevice : World S → Prop
  ending : ℕ → World S → Prop
  ended : World S → Prop
  failed : SttError → World S → Prop
  handed : StreamEvent → Prop
  stable : c.Stable between
  online_stable : c.Stable online
  idle : ∀ name w, name.quiet = true → c.inv w → between w → c.promised name w w
  private_step : ∀ name w v, name.quiet = true → Private w v → c.inv w → online w →
    c.inv v ∧ c.promised name w v ∧ online v
  staysOnline : ∀ w, c.inv w → between w → w.cloud.isSome = true → online w
  goesLocal : ∀ w, c.inv w → between w → w.cloud.isSome = false → onDevice w
  online_between : ∀ w, c.inv w → online w → between w
  received : ∀ w, c.inv w → ∀ event ∈ w.inbox, handed event
  surfaced : ∀ error w, handed (.error error) → c.inv w → online w → failed error w
  unlessFenced : ∀ message,
    Triple c between (unlessFenced message) (fun _ => between) failed
  readPcm : ∀ cursor last, Triple c online (readPcm cursor last) (fun _ => online) failed
  emit : ∀ event, event.free = true → Triple c online (emit event) (fun _ => online) failed
  cloudFinal : ∀ segment, handed (.final segment) →
    Triple c online (cloudFinal segment) (fun _ => online) failed
  demoteLocal : ∀ reason, Triple c online (demoteLocal reason) (fun _ => between) failed
  closedTest : ∀ last, Triple c online
    (.read (.closedTest last) (·.inputClosed) : Worker S Bool)
    (fun closed w => if closed then ending last w else between w) failed
  cloudStop : ∀ last, Triple c (ending last) (cloudStop last)
    (Control.leaves between ended) failed
  localPass : ∀ last, Triple c onDevice (localPass last) (Control.leaves between ended) failed

namespace Outline
variable {c : Contract Label (World S)} (o : Outline c)

/-- The program keeps a cloud source on the cloud. -/
def Keeps {α : Type} (p : Worker S α) : Prop := Triple c o.online p (fun _ => o.online) o.failed

/-- The program may take a cloud source off the cloud. -/
def Leaves {α : Type} (p : Worker S α) : Prop :=
  Triple c o.online p (fun _ => o.between) o.failed

variable {o} {α β : Type} {p : Worker S α} {f : α → Worker S β}

theorem Keeps.leaves (h : o.Keeps p) : o.Leaves p :=
  h.post fun _ w hinv h => o.online_between w hinv h

theorem Keeps.pure (a : α) : o.Keeps (Pure.pure a : Worker S α) := Triple.pure fun _ _ h => h

theorem Leaves.pure (a : α) : o.Leaves (Pure.pure a : Worker S α) := (Keeps.pure a).leaves

theorem Keeps.bind (hp : o.Keeps p) (hf : ∀ a, o.Keeps (f a)) : o.Keeps (p >>= f) :=
  Triple.bind hp hf

theorem Keeps.then (hp : o.Keeps p) (hf : ∀ a, o.Leaves (f a)) : o.Leaves (p >>= f) :=
  Triple.bind hp hf

theorem Keeps.read {name : Label} (hquiet : name.quiet = true) (f : World S → α) :
    o.Keeps (Proc.read name f : Worker S α) :=
  Triple.read o.online_stable fun w hinv hb _ =>
    (o.private_step name w w hquiet (.refl w) hinv hb).2

theorem Keeps.own {f : World S → Except SttError α × World S} (h : ∀ w, Private w (f w).2)
    (hok : ∀ w, ∃ a, (f w).1 = .ok a) : o.Keeps (Proc.atomic .own f : Worker S α) := by
  refine atomic o.online_stable fun w hinv hb _ => ?_
  obtain ⟨hinv', hprom, hb'⟩ := o.private_step .own w _ rfl (h w) hinv hb
  obtain ⟨a, ha⟩ := hok w
  rw [ha]
  exact ⟨hinv', hprom, hb'⟩

theorem Keeps.update {f : World S → World S} (h : ∀ w, Private w (f w)) :
    o.Keeps (Proc.update .own f : Worker S Unit) :=
  Triple.update o.online_stable fun w hinv hb _ => o.private_step .own w _ rfl (h w) hinv hb

variable (o) {event : StreamEvent}

/-! ## The cloud's part -/

theorem receive_private (w : World S) : Private w w.receive.2 := by
  unfold World.receive
  split
  · exact .refl w
  rename_i cloud hcloud
  split
  · next event rest hinbox =>
    refine ⟨⟨⟨rfl, ?_, rfl, rfl, rfl, rfl⟩, rfl, rfl, ?_⟩, rfl, rfl, rfl, rfl, rfl⟩
    · rw [hcloud]
      rfl
    · show rest ⊆ (w.cloud.map (·.inbox)).getD []
      rw [hcloud]
      show rest ⊆ cloud.inbox
      rw [hinbox]
      exact List.subset_cons_self event rest
  · exact .refl w

theorem receive_event {w : World S} (h : w.receive.1 = .ok (.event event)) : event ∈ w.inbox := by
  unfold World.receive at h
  split at h
  · cases h
  rename_i cloud hcloud
  split at h
  · next first rest hinbox =>
    cases h
    show event ∈ (w.cloud.map (·.inbox)).getD []
    rw [hcloud]
    show event ∈ cloud.inbox
    rw [hinbox]
    exact List.mem_cons_self
  · split at h <;> cases h

theorem receive_ok (w : World S) : ∃ received, w.receive.1 = .ok received := by
  unfold World.receive
  split
  · exact ⟨_, rfl⟩
  · split <;> exact ⟨_, rfl⟩

theorem receive : Triple c o.online (Proc.atomic .own World.receive : Worker S Received)
    (fun received w => o.online w ∧ ∀ event, received = .event event → o.handed event)
    o.failed := by
  refine atomic o.online_stable fun w hinv hb _ => ?_
  obtain ⟨hinv', hprom, hb'⟩ := o.private_step .own w _ rfl (receive_private w) hinv hb
  obtain ⟨received, hreceived⟩ := receive_ok w
  rw [hreceived]
  refine ⟨hinv', hprom, hb', fun event hevent => ?_⟩
  rw [hevent] at hreceived
  exact o.received w hinv event (receive_event hreceived)

variable (error : SttError) (w : World S)

theorem judge_private : Private w (w.judge error).2 := by
  unfold World.judge
  split
  · exact { Private.refl w with }
  · exact .refl w

theorem judge_ok : ∃ d, (w.judge error).1 = .ok d := by
  unfold World.judge
  split <;> exact ⟨_, rfl⟩

open Stream

/-- An event after which the reading goes on leaves the source on the cloud. -/
theorem cloudEvent (h : o.handed event) : Triple c o.online (cloudEvent event)
      (fun more w => if more then o.online w else o.between w) o.failed := by
  cases event with
  | interim segment =>
    exact bind (o.emit (.interim segment) rfl) fun _ => pure fun _ _ h => h
  | final segment =>
    exact bind (o.cloudFinal segment h) fun _ => pure fun _ _ h => h
  | error error =>
    refine bind (Keeps.own (judge_private error) (judge_ok error)) fun decision => ?_
    cases decision with
    | surface => exact fail fun w hinv hb => o.surfaced error w h hinv hb
    | keepCloud =>
      exact bind (o.emit (.error error) rfl) fun _ => pure fun _ _ h => h
    | switch reason =>
      exact bind (o.emit (.error error) rfl) fun _ =>
        bind (o.demoteLocal reason) fun _ => pure fun _ _ h => h
  | state state =>
    cases state with
    | closed => exact bind (o.demoteLocal _) fun _ => pure fun _ _ h => h
    | connecting | «open» | reconnecting =>
      refine bind (Keeps.update fun w => { Private.refl w with }) fun _ => ?_
      exact bind (o.emit _ rfl) fun _ => pure fun _ _ h => h

theorem cloudEvents (count : ℕ) : o.Leaves (cloudEvents count : Worker S Unit) := by
  induction count with
  | zero => exact .pure ()
  | succ count ih =>
    refine bind o.receive fun received => ?_
    cases received with
    | empty => exact pure fun w hinv h => o.online_between w hinv h.1
    | disconnected =>
      exact (o.demoteLocal .transportBudget).pre fun _ _ h => h.1
    | event event =>
      -- what is known of the event does not depend on the state
      intro w hinv hb
      refine bind (o.cloudEvent (hb.2 event rfl)) (fun more => ?_) w hinv hb.1
      cases more with
      | true => exact ih
      | false => exact pure fun _ _ h => h

theorem hear (last : ℕ) : o.Keeps (hear last : Worker S Unit) := by
  refine (Keeps.read rfl _).bind fun cursor => ?_
  split
  · exact Keeps.bind (o.readPcm _ _) fun pcm => .update fun w => { Private.refl w with }
  · exact .pure ()

theorem tick : o.Leaves (Stream.tick : Worker S Unit) := by
  unfold Stream.tick
  split
  · refine Keeps.then (.own (fun w => { Private.refl w with }) fun w => ⟨_, rfl⟩) fun decision => ?_
    cases decision with
    | switch reason => exact o.demoteLocal reason
    | keepCloud | surface => exact .pure ()
  · exact .pure ()

theorem block : o.Leaves (Stream.block : Worker S Unit) := by
  unfold Stream.block
  split
  · refine Keeps.then (.own (fun w => { Private.refl w with }) fun w => ⟨_, rfl⟩) fun blocked => ?_
    split
    · exact o.demoteLocal _
    · exact .pure ()
  · exact .pure ()

theorem feed (last : ℕ) : o.Leaves (feed last : Worker S Unit) := by
  refine (Keeps.read rfl _).then fun cursor => ?_
  split
  · refine Keeps.then (o.readPcm _ _) fun pcm => (Keeps.read rfl _).then fun room => ?_
    split
    · exact Keeps.leaves (.update fun w => { Private.refl w with })
    · exact o.block
  · exact .pure ()

/-! ## The loop -/

/-- Where the source is. -/
theorem onCloud : Triple c o.between (onCloud : Worker S Bool)
    (fun cloud w => if cloud then o.online w else o.between w ∧ w.cloud.isSome = false)
    o.failed := by
  refine read o.stable fun w hinv hb _ => ⟨o.idle .own w rfl hinv hb, ?_⟩
  cases hcloud : w.cloud.isSome with
  | true => exact o.staysOnline w hinv hb hcloud
  | false => exact ⟨hb, rfl⟩

theorem whileCloud {p : Worker S Unit} (h : o.Leaves p) :
    Triple c o.between (whileCloud p) (fun _ => o.between) o.failed := by
  refine bind o.onCloud fun cloud => ?_
  cases cloud with
  | true => exact h
  | false => exact pure fun _ _ h => h.1

variable (last : ℕ)

theorem cloudPass : Triple c o.online (cloudPass last)
    (Control.leaves o.between o.ended) o.failed := by
  refine bind (o.feed last) fun _ => bind o.onCloud fun cloud => ?_
  cases cloud with
  | false => exact pure fun _ _ h => h.1
  | true =>
    refine bind (o.closedTest last) fun closed => ?_
    cases closed with
    | true => exact o.cloudStop last
    | false => exact pure fun _ _ h => h

theorem enterLocal : Triple c (fun w => o.between w ∧ w.cloud.isSome = false)
    (Stream.localPass last) (Control.leaves o.between o.ended) o.failed :=
  (o.localPass last).pre fun w hinv h => o.goesLocal w hinv h.1 h.2

theorem serve : Triple c o.between (serve last) (Control.leaves o.between o.ended) o.failed := by
  refine bind o.onCloud fun cloud => ?_
  cases cloud with
  | false => exact o.enterLocal last
  | true =>
    refine bind (o.cloudPass last) fun control => ?_
    cases control with
    | completed => exact pure fun _ _ h => h
    | again =>
      refine bind o.onCloud fun cloud => ?_
      cases cloud with
      | true => exact pure fun w hinv h => o.online_between w hinv h
      | false => exact o.enterLocal last

theorem loadEnd : Triple c o.between (Proc.read .loadEnd (·.endSample) : Worker S ℕ)
    (fun _ => o.between) o.failed :=
  read o.stable fun w hinv hb _ => ⟨o.idle .loadEnd w rfl hinv hb, hb⟩

theorem pass : Triple c o.between pass (Control.leaves o.between o.ended) o.failed :=
  bind (o.unlessFenced _) fun _ =>
    bind (o.whileCloud (o.cloudEvents 64)) fun _ =>
    bind o.loadEnd fun last =>
    bind (o.whileCloud ((o.hear last).then fun _ => o.tick)) fun _ => o.serve last

/-- The thread around the loop, from what the terminal publication does. -/
theorem thread {stopped : World S → Prop}
    (hended : Triple c o.ended (Proc.update .gate (World.terminal none) : Worker S Unit)
      (fun _ => stopped) (fun _ _ => False))
    (hfailed : ∀ error, Triple c (o.failed error)
      (Proc.update .gate (World.terminal (some error)) : Worker S Unit)
      (fun _ => stopped) (fun _ _ => False)) :
    Triple c o.between thread (fun running w => if running then o.between w else stopped w)
      (fun _ _ => False) := by
  refine bind (attempt (R := fun result w => match result with
    | .ok control => control.leaves o.between o.ended w
    | .error error => o.failed error w) o.pass (fun _ _ _ h => h) (fun _ _ _ h => h))
    fun result => ?_
  cases result with
  | error error => exact bind (hfailed error) fun _ => pure fun _ _ h => h
  | ok control =>
    cases control with
    | again => exact pure fun _ _ h => h
    | completed => exact bind hended fun _ => pure fun _ _ h => h

end Outline

end FlyOnTheWall.Stream
