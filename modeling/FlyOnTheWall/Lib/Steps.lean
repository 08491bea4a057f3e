/-
  Programs that change a state step by step and can be cut after any step.

  * `Prog S ε α` runs on a state, returns a result and records the state after each step.
  * `Spec P p Q C`: from a state with `P`, the result and the last state satisfy `Q`, and every
    recorded state satisfies `C`. A crash is one of the recorded states.
  * `Prog.Returns p s a t`: the runs that succeed, with one rule for each way to build a program.
  * The rules: `Spec.pure`, `Spec.bind`, `Spec.seq`, `Spec.step`, `Spec.read`, `Spec.conseq`.
  * `Prog.Task`: a specification with one condition for every state on the way, one for what is
    returned, and one under which the program does not fail; with its own rules.
-/
import Mathlib.Data.List.Basic

namespace FlyOnTheWall.Lib
open List

structure Ran (S ε α : Type) where
  result : Except ε α
  state : S
  trace : List S

def Prog (S ε α : Type) : Type := S → Ran S ε α

namespace Prog
variable {S T ε ε' α β : Type}

protected def pure (a : α) : Prog S ε α := fun s => ⟨.ok a, s, []⟩

protected def bind (p : Prog S ε α) (f : α → Prog S ε β) : Prog S ε β := fun s =>
  match p s with
  | ⟨.error e, t, trace⟩ => ⟨.error e, t, trace⟩
  | ⟨.ok a, t, trace⟩ => ⟨(f a t).result, (f a t).state, trace ++ (f a t).trace⟩

instance : Monad (Prog S ε) where
  pure := Prog.pure
  bind := Prog.bind

/-- One step of the file system. -/
def step (f : S → S) : Prog S ε Unit := fun s => ⟨.ok (), f s, [f s]⟩

/-- A check or a computation on the state, which it leaves alone. -/
def read (f : S → Except ε α) : Prog S ε α := fun s => ⟨f s, s, []⟩

def mapError (g : ε → ε') (p : Prog S ε α) : Prog S ε' α := fun s =>
  ⟨match (p s).result with | .ok a => .ok a | .error e => .error (g e), (p s).state, (p s).trace⟩

/-- A failed program cleans up behind itself. -/
def onError (cleanup : S → S) (p : Prog S ε α) : Prog S ε α := fun s =>
  match p s with
  | ⟨.ok a, t, trace⟩ => ⟨.ok a, t, trace⟩
  | ⟨.error e, t, trace⟩ => ⟨.error e, cleanup t, trace ++ [cleanup t]⟩

/-- The result of a program as a value. -/
def attempt (p : Prog S ε α) : Prog S ε' (Except ε α) := fun s =>
  ⟨.ok (p s).result, (p s).state, (p s).trace⟩

/-- A program on a part of the state; `absent` if there is no such part. -/
def zoom (get : T → Option S) (set : T → S → T) (absent : ε) (p : Prog S ε α) : Prog T ε α :=
  fun t =>
    match get t with
    | none => ⟨.error absent, t, []⟩
    | some s => ⟨(p s).result, set t (p s).state, (p s).trace.map (set t)⟩

/-! ## Returning -/

/-- The program returns `a` and leaves the state `t`. -/
def Returns (p : Prog S ε α) (s : S) (a : α) (t : S) : Prop :=
  (p s).result = .ok a ∧ (p s).state = t

variable {a : α} {s t : S}

theorem returns_pure {b : α} : (pure a : Prog S ε α).Returns s b t ↔ a = b ∧ s = t := by
  show (Except.ok a : Except ε α) = .ok b ∧ s = t ↔ _
  rw [Except.ok.injEq]

theorem returns_read {f : S → Except ε α} : (read f).Returns s a t ↔ f s = .ok a ∧ s = t := Iff.rfl

theorem returns_step {f : S → S} {u : Unit} : (step f : Prog S ε Unit).Returns s u t ↔ f s = t :=
  ⟨fun h => h.2, fun h => ⟨rfl, h⟩⟩

variable {p : Prog S ε α} {f : α → Prog S ε β} {b : β} {u : S}

theorem returns_bind : (p >>= f).Returns s b u ↔ ∃ a t, p.Returns s a t ∧ (f a).Returns t b u := by
  have hrun : (p >>= f) s = Prog.bind p f s := rfl
  rw [Returns, hrun, Prog.bind]
  constructor
  · split
    · rintro ⟨h, -⟩
      exact absurd h (by simp)
    · next a t trace heq =>
      rintro ⟨h, hstate⟩
      exact ⟨a, t, ⟨by rw [heq], by rw [heq]⟩, h, hstate⟩
  · rintro ⟨a, t, ⟨hok, hstate⟩, h⟩
    split
    · next e t' trace heq =>
      rw [heq] at hok
      exact absurd hok (by simp)
    · next a' t' trace heq =>
      rw [heq] at hok hstate
      cases hok
      cases hstate
      exact h

theorem Returns.pure : (Pure.pure a : Prog S ε α).Returns s a s := ⟨rfl, rfl⟩

theorem Returns.read {f : S → Except ε α} (h : f s = .ok a) : (Prog.read f).Returns s a s :=
  ⟨h, rfl⟩

theorem Returns.check {f : S → Except ε Unit} (h : f s = .ok ()) : (Prog.read f).Returns s () s :=
  .read h

theorem Returns.step {f : S → S} (h : f s = t) : (Prog.step f : Prog S ε Unit).Returns s () t :=
  returns_step.mpr h

theorem Returns.bind (hp : p.Returns s a t) (hf : (f a).Returns t b u) : (p >>= f).Returns s b u :=
  returns_bind.mpr ⟨a, t, hp, hf⟩

theorem returns_map {g : α → β} : (g <$> p).Returns s b t ↔ ∃ a, p.Returns s a t ∧ g a = b := by
  have hmap : g <$> p = p >>= fun a => pure (g a) := rfl
  rw [hmap, returns_bind]
  constructor
  · rintro ⟨a, u, hp, hpure⟩
    obtain ⟨heq, rfl⟩ := returns_pure.mp hpure
    exact ⟨a, hp, heq⟩
  · rintro ⟨a, hp, heq⟩
    exact ⟨a, t, hp, returns_pure.mpr ⟨heq, rfl⟩⟩

theorem returns_mapError {g : ε → ε'} : (mapError g p).Returns s a t ↔ p.Returns s a t := by
  rw [Returns, Returns, mapError]
  cases (p s).result <;> simp

theorem returns_onError {cleanup : S → S} :
    (onError cleanup p).Returns s a t ↔ p.Returns s a t := by
  rw [Returns, Returns, onError]
  cases h : p s with
  | mk result state trace => cases result <;> simp

theorem Returns.zoom {get : T → Option S} {set : T → S → T} {absent : ε} {w : T}
    (hget : get w = some s) (hp : p.Returns s a t) :
    (Prog.zoom get set absent p).Returns w a (set w t) := by
  rw [Returns, Prog.zoom, hget]
  exact ⟨hp.1, congrArg (set w) hp.2⟩

/-- What comes after a program that returned. -/
theorem Returns.run_bind (h : p.Returns s a t) :
    (p >>= f) s = ⟨(f a t).result, (f a t).state, (p s).trace ++ (f a t).trace⟩ := by
  have hrun : (p >>= f) s = Prog.bind p f s := rfl
  rw [hrun, Prog.bind]
  cases hp : p s with
  | mk result state trace =>
    obtain ⟨hresult, hstate⟩ := h
    rw [hp] at hresult hstate
    cases hresult
    cases hstate
    rfl

theorem Returns.trace_bind (h : p.Returns s a t) :
    ((p >>= f) s).trace = (p s).trace ++ (f a t).trace := by
  rw [h.run_bind]

theorem Returns.mem_trace (h : p.Returns s a t) (hu : u ∈ ((p >>= f) s).trace) :
    u ∈ (p s).trace ∨ u ∈ (f a t).trace := by
  rw [h.trace_bind] at hu
  exact mem_append.mp hu

/-- The steps of a part are steps of the whole. -/
theorem mem_trace_bind (hu : u ∈ (p s).trace) : u ∈ ((p >>= f) s).trace := by
  have hrun : (p >>= f) s = Prog.bind p f s := rfl
  rw [hrun, Prog.bind]
  cases hp : p s with
  | mk result state trace =>
    rw [hp] at hu
    cases result with
    | error e => exact hu
    | ok a => exact mem_append_left _ hu

theorem Returns.mem_trace_after (h : p.Returns s a t) (hu : u ∈ (f a t).trace) :
    u ∈ ((p >>= f) s).trace := by
  rw [h.trace_bind]
  exact mem_append_right _ hu

theorem mem_trace_onError {cleanup : S → S} (hu : u ∈ (p s).trace) :
    u ∈ (onError cleanup p s).trace := by
  rw [onError]
  cases hp : p s with
  | mk result state trace =>
    rw [hp] at hu
    cases result with
    | error e => exact mem_append_left _ hu
    | ok a => exact hu

/-- A check that passes is out of the way. -/
theorem read_bind {f : S → Except ε α} {g : α → Prog S ε β} (h : f s = .ok a) :
    (read f >>= g) s = g a s := (Returns.read h).run_bind

theorem returns_attempt {r : Except ε α} :
    (attempt p : Prog S ε' (Except ε α)).Returns s r t ↔ (p s).result = r ∧ (p s).state = t := by
  rw [Returns, attempt, Except.ok.injEq]

end Prog

/-! ## Specifications -/

structure Spec {S ε α : Type} (P : S → Prop) (p : Prog S ε α) (Q : Except ε α → S → Prop)
    (C : S → Prop) : Prop where
  post : ∀ s, P s → Q (p s).result (p s).state
  crash : ∀ s, P s → ∀ t ∈ (p s).trace, C t

namespace Spec
variable {S T ε ε' α β : Type} {P : S → Prop} {Q : Except ε α → S → Prop} {C : S → Prop}

theorem pure {a : α} (h : ∀ s, P s → Q (.ok a) s) : Spec P (Pure.pure a : Prog S ε α) Q C :=
  ⟨h, fun _ _ _ ht => absurd ht not_mem_nil⟩

theorem read {f : S → Except ε α} (h : ∀ s, P s → Q (f s) s) : Spec P (Prog.read f) Q C :=
  ⟨h, fun _ _ _ ht => absurd ht not_mem_nil⟩

theorem step {f : S → S} {Q : Except ε Unit → S → Prop}
    (h : ∀ s, P s → Q (.ok ()) (f s) ∧ C (f s)) : Spec P (Prog.step f) Q C := by
  refine ⟨fun s hs => (h s hs).1, fun s hs t ht => ?_⟩
  rw [mem_singleton.mp ht]
  exact (h s hs).2

variable {p : Prog S ε α} {f : α → Prog S ε β} {Q' : Except ε α → S → Prop} {P' C' : S → Prop}

theorem conseq (h : Spec P p Q C) (hP : ∀ s, P' s → P s)
    (hQ : ∀ r s, Q r s → Q' r s) (hC : ∀ s, C s → C' s) : Spec P' p Q' C' :=
  ⟨fun s hs => hQ _ _ (h.post s (hP s hs)), fun s hs t ht => hC t (h.crash s (hP s hs) t ht)⟩

theorem pre (h : Spec P p Q C) (hP : ∀ s, P' s → P s) : Spec P' p Q C :=
  h.conseq hP (fun _ _ h => h) fun _ h => h

theorem start {s : S} (h : Spec P p Q C) (hs : P s) : Spec (· = s) p Q C :=
  h.pre fun _ ht => ht ▸ hs

theorem mono (h : Spec P p Q C) (hQ : ∀ r s, Q r s → Q' r s) : Spec P p Q' C :=
  h.conseq (fun _ h => h) hQ fun _ h => h

/-- A specification can be proved for one state at a time. -/
theorem pointwise (h : ∀ s, P s → Spec (· = s) p Q C) : Spec P p Q C :=
  ⟨fun s hs => (h s hs).post s rfl, fun s hs => (h s hs).crash s rfl⟩

/-- A fact about no state is a hypothesis. -/
theorem assuming {h : Prop} (hp : h → Spec P p Q C) : Spec (fun s => h ∧ P s) p Q C :=
  ⟨fun s hs => (hp hs.1).post s hs.2, fun s hs => (hp hs.1).crash s hs.2⟩

section
variable {Q : Except ε β → S → Prop}

/-- The middle condition `R` is for success; a failure has to meet the final one. -/
theorem bind {R : α → S → Prop}
    (hp : Spec P p (fun r s => match r with | .ok a => R a s | .error e => Q (.error e) s) C)
    (hf : ∀ a, Spec (R a) (f a) Q C) : Spec P (p >>= f) Q C := by
  have hrun : ∀ s, (p >>= f) s = Prog.bind p f s := fun _ => rfl
  refine ⟨fun s hs => ?_, fun s hs t ht => ?_⟩
  · have hpost := hp.post s hs
    rw [hrun, Prog.bind]
    split
    · next e t trace heq =>
      rw [heq] at hpost
      exact hpost
    · next a t trace heq =>
      rw [heq] at hpost
      exact (hf a).post t hpost
  · have hpost := hp.post s hs
    have hcrash := hp.crash s hs
    rw [hrun, Prog.bind] at ht
    split at ht
    · next e u trace heq =>
      rw [heq] at hcrash
      exact hcrash t ht
    · next a u trace heq =>
      rw [heq] at hpost hcrash
      rcases mem_append.mp ht with ht | ht
      · exact hcrash t ht
      · exact (hf a).crash u hpost t ht

/-- What the first program leaves, success or failure, is what the rest starts from. -/
theorem seq {R : Except ε α → S → Prop} (hp : Spec P p R C)
    (herr : ∀ e s, R (.error e) s → Q (.error e) s) (hok : ∀ a, Spec (R (.ok a)) (f a) Q C) :
    Spec P (p >>= f) Q C := by
  refine Spec.bind (R := fun a => R (.ok a)) ⟨fun s hs => ?_, hp.crash⟩ hok
  have hpost := hp.post s hs
  generalize (p s).result = r at hpost
  cases r with
  | ok a => exact hpost
  | error e => exact herr e _ hpost

variable {g : S → Except ε α} {x : Except ε α}

/-- A check whose outcome the precondition determines. -/
theorem bind_known (h : ∀ s, P s → g s = x)
    (herr : ∀ e, x = .error e → ∀ s, P s → Q (.error e) s)
    (hok : ∀ a, x = .ok a → Spec P (f a) Q C) :
    Spec P (Prog.read g >>= f) Q C := by
  refine Spec.bind (R := fun a s => x = .ok a ∧ P s) (Spec.read fun s hs => ?_) fun a => ?_
  · rw [h s hs]
    cases x with
    | error e => exact herr e rfl s hs
    | ok a => exact ⟨rfl, hs⟩
  · exact Spec.assuming (hok a)

theorem bind_check (herr : ∀ e, x = .error e → ∀ s, P s → Q (.error e) s)
    (hok : ∀ a, x = .ok a → Spec P (f a) Q C) : Spec P (Prog.read (fun _ => x) >>= f) Q C :=
  Spec.bind_known (fun _ _ => rfl) herr hok

/-- A check of the state. -/
theorem bind_read (herr : ∀ s e, P s → g s = .error e → Q (.error e) s)
    (hok : ∀ a, Spec (fun s => P s ∧ g s = .ok a) (f a) Q C) : Spec P (Prog.read g >>= f) Q C := by
  refine Spec.bind (R := fun a s => P s ∧ g s = .ok a) (Spec.read fun s hs => ?_) hok
  cases hg : g s with
  | error e => exact herr s e hs hg
  | ok a => exact ⟨hs, rfl⟩

/-- What holds in any case, and what a success gives in addition. -/
theorem bind_gain {A : S → Prop} {B : α → S → Prop}
    (hp : Spec P p (fun r s => A s ∧ ∀ a, r = .ok a → B a s) C) (herr : ∀ e s, A s → Q (.error e) s)
    (hok : ∀ a, Spec (fun s => B a s ∧ A s) (f a) Q C) : Spec P (p >>= f) Q C := by
  refine Spec.seq hp (fun e s hs => herr e s hs.1) fun a => ?_
  exact (hok a).pre fun s hs => ⟨hs.2 a rfl, hs.1⟩

end

theorem bind_step {f : S → S} {R : S → Prop} (hstep : ∀ s, P s → R (f s) ∧ C (f s))
    (h : Spec R p Q C) : Spec P (Prog.step f >>= fun _ => p) Q C :=
  Spec.bind (R := fun _ => R) (Spec.step hstep) fun _ => h

theorem mapError {g : ε → ε'} {Q : Except ε' α → S → Prop}
    (h : Spec P p (fun r s => Q (match r with | .ok a => .ok a | .error e => .error (g e)) s) C) :
    Spec P (p.mapError g) Q C := ⟨fun s hs => h.post s hs, fun s hs => h.crash s hs⟩

theorem attempt {Q : Except ε' (Except ε α) → S → Prop} (h : Spec P p (fun r s => Q (.ok r) s) C) :
    Spec P (Prog.attempt p : Prog S ε' (Except ε α)) Q C :=
  ⟨fun s hs => h.post s hs, fun s hs => h.crash s hs⟩

/-- A program on a part is specified for each value of that part. -/
theorem zoom {P : T → Prop} {Q : Except ε α → T → Prop} {C : T → Prop} {get : T → Option S}
    {set : T → S → T} {absent : ε} (hnone : ∀ t, P t → get t = none → Q (.error absent) t)
    (hsome : ∀ t s, P t → get t = some s →
      Spec (· = s) p (fun r s' => Q r (set t s')) (fun s' => C (set t s'))) :
    Spec P (Prog.zoom get set absent p) Q C := by
  refine ⟨fun t ht => ?_, fun t ht u hu => ?_⟩
  · rw [Prog.zoom]
    cases hget : get t with
    | none => exact hnone t ht hget
    | some s => exact (hsome t s ht hget).post s rfl
  · rw [Prog.zoom] at hu
    cases hget : get t with
    | none =>
      rw [hget] at hu
      exact absurd hu not_mem_nil
    | some s =>
      rw [hget] at hu
      obtain ⟨s', hs', rfl⟩ := mem_map.mp hu
      exact (hsome t s ht hget).crash s rfl s' hs'

/-- What a program returns and leaves, in terms of its runs. -/
theorem returns {s : S} (h : ∀ t ∈ (p s).trace, C t) :
    Spec (· = s) p (fun r t => ∀ a, r = .ok a → p.Returns s a t) C := by
  refine ⟨?_, ?_⟩
  · rintro _ rfl a ha
    exact ⟨ha, rfl⟩
  · rintro _ rfl
    exact h

theorem and (h : Spec P p Q C) (h' : Spec P p Q' C') :
    Spec P p (fun r s => Q r s ∧ Q' r s) (fun s => C s ∧ C' s) :=
  ⟨fun s hs => ⟨h.post s hs, h'.post s hs⟩,
    fun s hs t ht => ⟨h.crash s hs t ht, h'.crash s hs t ht⟩⟩

end Spec

/-! ## Tasks -/

/-- A program that may be cut, may fail and may succeed: `A` holds of every recorded state and
    of the last one, `B` of what a success returns, and under `sure` it does not fail. -/
def Prog.Task {S ε α : Type} (P : S → Prop) (p : Prog S ε α) (A : S → Prop) (B : α → S → Prop)
    (sure : Prop) : Prop :=
  Spec P p (fun r s => A s ∧ (∀ a, r = .ok a → B a s) ∧ (sure → ∃ a, r = .ok a)) A

namespace Prog.Task
variable {S ε α β : Type} {P A : S → Prop} {B : α → S → Prop} {U : Prop}

theorem pure {a : α} (h : ∀ s, P s → A s ∧ B a s) : Task P (Pure.pure a : Prog S ε α) A B U := by
  refine Spec.pure fun s hs => ⟨(h s hs).1, fun b hb => ?_, fun _ => ⟨a, rfl⟩⟩
  cases hb
  exact (h s hs).2

theorem read {f : S → Except ε α} (h : ∀ s, P s → A s)
    (hok : ∀ s a, P s → f s = .ok a → B a s) (hsure : U → ∀ s, P s → ∃ a, f s = .ok a) :
    Task P (Prog.read f) A B U :=
  Spec.read fun s hs => ⟨h s hs, fun a ha => hok s a hs ha, fun hs' => hsure hs' s hs⟩

theorem step {f : S → S} {B : Unit → S → Prop} (h : ∀ s, P s → A (f s) ∧ B () (f s)) :
    Task P (Prog.step f : Prog S ε Unit) A B U :=
  Spec.step fun s hs => ⟨⟨(h s hs).1, fun _ _ => (h s hs).2, fun _ => ⟨(), rfl⟩⟩, (h s hs).1⟩

variable {p : Prog S ε α} {B' : β → S → Prop} {f : α → Prog S ε β} {V : Prop}

theorem bind {W : α → Prop} (hp : Task P p A B U)
    (hf : ∀ a, Task (fun s => B a s ∧ A s) (f a) A B' (W a)) (hfirst : V → U)
    (hrest : ∀ a s, V → B a s → W a) : Task P (p >>= f) A B' V := by
  refine Spec.bind (R := fun a s => (V → W a) ∧ B a s ∧ A s) ⟨fun s hs => ?_, hp.crash⟩
    fun a => ?_
  · obtain ⟨hA, hB, hsure⟩ := hp.post s hs
    cases hr : (p s).result with
    | error e =>
      refine ⟨hA, fun b hb => absurd hb (by simp), fun hs' => ?_⟩
      obtain ⟨a, ha⟩ := hsure (hfirst hs')
      exact absurd (hr.symm.trans ha) (by simp)
    | ok a => exact ⟨fun hs' => hrest a _ hs' (hB a hr), hB a hr, hA⟩
  · refine Spec.assuming fun hgo => ⟨fun s hs => ?_, (hf a).crash⟩
    obtain ⟨hA, hB, hsure⟩ := (hf a).post s hs
    exact ⟨hA, hB, fun hs' => hsure (hgo hs')⟩

theorem conseq {P' A' : S → Prop} {B' : α → S → Prop} (h : Task P p A B U) (hP : ∀ s, P' s → P s)
    (hA : ∀ s, A s → A' s) (hB : ∀ a s, B a s → B' a s) (hsure : V → U) : Task P' p A' B' V :=
  Spec.conseq h hP
    (fun _ s hr => ⟨hA s hr.1, fun a ha => hB a s (hr.2.1 a ha), fun hs => hr.2.2 (hsure hs)⟩) hA

/-- A computation that does not look at the state. -/
theorem check {x : Except ε α} (hA : ∀ s, P s → A s) (hsure : U → ∃ a, x = .ok a)
    (hok : ∀ a, x = .ok a → Task P (f a) A B' U) :
    Task P (Prog.read (fun _ => x) >>= f) A B' U := by
  refine Spec.bind_check (fun e he s hs => ?_) hok
  refine ⟨hA s hs, fun b hb => absurd hb (by simp), fun hs' => ?_⟩
  obtain ⟨a, ha⟩ := hsure hs'
  exact absurd (he.symm.trans ha) (by simp)

/-- A fact about no state is a hypothesis. -/
theorem assuming {h : Prop} (hp : h → Task P p A B U) : Task (fun s => h ∧ P s) p A B U :=
  Spec.assuming hp

theorem given {h : Prop} {P' : S → Prop} (hP : ∀ s, P' s → h ∧ P s) (hp : h → Task P p A B U) :
    Task P' p A B U := (assuming hp).conseq hP (fun _ h => h) (fun _ _ h => h) fun h => h

theorem map {g : α → β} (hp : Task P p A B U) (h : ∀ a s, B a s → B' (g a) s) :
    Task P (g <$> p) A B' U :=
  hp.bind (fun a => pure fun s hs => ⟨hs.2, h a s hs.1⟩) (fun hs => hs) (fun _ _ hs _ => hs)

end Prog.Task

/-! ## Invariants -/

/-- Every recorded state and the last one satisfy the invariant. -/
def Prog.Preserves {S ε α : Type} (p : Prog S ε α) (I : S → Prop) : Prop :=
  Spec I p (fun _ => I) I

namespace Prog.Preserves
variable {S ε ε' α β : Type} {I : S → Prop}

theorem pure {a : α} : (Pure.pure a : Prog S ε α).Preserves I := Spec.pure fun _ h => h

theorem read {f : S → Except ε α} : (Prog.read f).Preserves I := Spec.read fun _ h => h

theorem step {f : S → S} (h : ∀ s, I s → I (f s)) : (Prog.step f : Prog S ε Unit).Preserves I :=
  Spec.step fun s hs => ⟨h s hs, h s hs⟩

variable {p : Prog S ε α}

section
variable (hp : p.Preserves I)
include hp

theorem bind {f : α → Prog S ε β} (hf : ∀ a, (f a).Preserves I) : (p >>= f).Preserves I :=
  Spec.seq hp (fun _ _ h => h) hf

theorem map {g : α → β} : (g <$> p).Preserves I := hp.bind fun _ => pure

theorem mapError {g : ε → ε'} : (Prog.mapError g p).Preserves I := Spec.mapError hp

theorem onError {cleanup : S → S} (hc : ∀ s, I s → I (cleanup s)) :
    (Prog.onError cleanup p).Preserves I := by
  refine ⟨fun s hs => ?_, fun s hs t ht => ?_⟩
  · have hpost := hp.post s hs
    rw [Prog.onError]
    cases hrun : p s with
    | mk result state trace =>
      rw [hrun] at hpost
      cases result with
      | ok a => exact hpost
      | error e => exact hc state hpost
  · have hpost := hp.post s hs
    have hcrash := hp.crash s hs
    rw [Prog.onError] at ht
    cases hrun : p s with
    | mk result state trace =>
      rw [hrun] at hpost hcrash ht
      cases result with
      | ok a => exact hcrash t ht
      | error e =>
        rcases mem_append.mp ht with ht | ht
        · exact hcrash t ht
        · rw [mem_singleton.mp ht]
          exact hc state hpost

end

end Prog.Preserves

end FlyOnTheWall.Lib
