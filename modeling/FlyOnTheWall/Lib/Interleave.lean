/-
  One thread among others.

  * `Proc ℓ σ ε α` is a program of named atomic steps over a shared state `σ`; between two
    steps anything else may happen to the state.
  * `Contract` says what a thread may count on and what it owes: an invariant of the state,
    what the others may do, what is assumed of a named step where it is taken, and what is
    promised of it.
  * `Triple c P p Q E`: from a state with `P`, every step of `p` keeps the contract, and `p`
    ends with `Q`, or with `E` if it fails. The rules follow the ways to build a program.
  * `Steps` interleaves a program with an environment; a program that returns may be started
    again. `Steps.sound`: what was proved along the program text holds on every interleaving.
-/
import Mathlib.Logic.Relation

namespace FlyOnTheWall.Lib

/-- `next` is given the state the step was taken in. -/
inductive Proc (ℓ σ ε α : Type)
  | done (result : Except ε α)
  | step (name : ℓ) (act : σ → σ) (next : σ → Proc ℓ σ ε α)

namespace Proc
variable {ℓ σ ε ε' α β : Type}

protected def bind : Proc ℓ σ ε α → (α → Proc ℓ σ ε β) → Proc ℓ σ ε β
  | .done (.ok a), f => f a
  | .done (.error e), _ => .done (.error e)
  | .step name act next, f => .step name act fun s => (next s).bind f

instance : Monad (Proc ℓ σ ε) where
  pure a := .done (.ok a)
  bind := Proc.bind

def fail (e : ε) : Proc ℓ σ ε α := .done (.error e)

variable (name : ℓ)

/-- One step that may fail. -/
def atomic (f : σ → Except ε α × σ) : Proc ℓ σ ε α :=
  .step name (fun s => (f s).2) fun s => .done (f s).1

def update (f : σ → σ) : Proc ℓ σ ε Unit :=
  .step name f fun _ => .done (.ok ())

def read (f : σ → α) : Proc ℓ σ ε α :=
  .step name id fun s => .done (.ok (f s))

/-- The result of a program as a value. -/
def attempt : Proc ℓ σ ε α → Proc ℓ σ ε' (Except ε α)
  | .done r => .done (.ok r)
  | .step name act next => .step name act fun s => (next s).attempt

def forEach (f : α → Proc ℓ σ ε Unit) : List α → Proc ℓ σ ε Unit
  | [] => pure ()
  | a :: rest => f a >>= fun _ => forEach f rest

/-- The program by itself, with nobody else about. -/
def run : Proc ℓ σ ε α → σ → Except ε α × σ
  | .done r, s => (r, s)
  | .step _ act next, s => (next s).run (act s)

@[simp] theorem run_pure (a : α) (s : σ) : (pure a : Proc ℓ σ ε α).run s = (.ok a, s) := rfl

@[simp] theorem run_read (name : ℓ) (f : σ → α) (s : σ) :
    (read name f : Proc ℓ σ ε α).run s = (.ok (f s), s) := rfl

theorem run_bind (p : Proc ℓ σ ε α) (f : α → Proc ℓ σ ε β) (s : σ) :
    (p >>= f).run s = match p.run s with
      | (.ok a, t) => (f a).run t
      | (.error e, t) => (.error e, t) := by
  induction p generalizing s with
  | done r => cases r <;> rfl
  | step name act next ih => exact ih s (act s)

variable {p : Proc ℓ σ ε α} {f : α → Proc ℓ σ ε β} {s t : σ}

theorem run_bind_ok {a : α} (h : p.run s = (.ok a, t)) : (p >>= f).run s = (f a).run t := by
  rw [run_bind, h]

theorem run_bind_error {e : ε} (h : p.run s = (.error e, t)) : (p >>= f).run s = (.error e, t) := by
  rw [run_bind, h]

end Proc

/-! ## Contracts -/

structure Contract (ℓ σ : Type) where
  inv : σ → Prop
  rely : σ → σ → Prop
  assumed : ℓ → σ → Prop
  promised : ℓ → σ → σ → Prop
  rely_refl : ∀ s, rely s s
  rely_trans : ∀ {s t u}, rely s t → rely t u → rely s u

section Rules
variable {ℓ σ ε ε' α β : Type} {c : Contract ℓ σ}

/-- From `s`, every step of the program keeps the contract and its end satisfies `Q`. -/
def Safe (c : Contract ℓ σ) (Q : Except ε α → σ → Prop) : Proc ℓ σ ε α → σ → Prop
  | .done r, s => Q r s
  | .step name act next, s => ∀ t, c.rely s t → c.inv t → c.assumed name t →
      c.inv (act t) ∧ c.promised name t (act t) ∧ Safe c Q (next t) (act t)

/-- How a program ends: with a value or with an error. -/
def ends (Q : α → σ → Prop) (E : ε → σ → Prop) : Except ε α → σ → Prop
  | .ok a, s => Q a s
  | .error e, s => E e s

section
variable (c : Contract ℓ σ) (P : σ → Prop)

def Triple (p : Proc ℓ σ ε α) (Q : α → σ → Prop) (E : ε → σ → Prop) : Prop :=
  ∀ s, c.inv s → P s → Safe c (fun r t => c.inv t ∧ ends Q E r t) p s

/-- The others cannot invalidate `P`. -/
def Contract.Stable : Prop :=
  ∀ s t, c.rely s t → P s → P t

end

variable {p : Proc ℓ σ ε α} {s : σ} {Q : Except ε α → σ → Prop}

theorem Safe.mono {Q' : Except ε α → σ → Prop} (h : ∀ r s, Q r s → Q' r s) (hp : Safe c Q p s) :
    Safe c Q' p s := by
  induction p generalizing s with
  | done r => exact h r s hp
  | step name act next ih =>
    intro t hst hinv hass
    obtain ⟨hkeep, hprom, hnext⟩ := hp t hst hinv hass
    exact ⟨hkeep, hprom, ih t hnext⟩

variable {f : α → Proc ℓ σ ε β}

theorem Safe.bind {Q' : Except ε β → σ → Prop}
    (hok : ∀ a s, Q (.ok a) s → Safe c Q' (f a) s) (herr : ∀ e s, Q (.error e) s → Q' (.error e) s)
    (hp : Safe c Q p s) : Safe c Q' (p >>= f) s := by
  induction p generalizing s with
  | done r =>
    cases r with
    | ok a => exact hok a s hp
    | error e => exact herr e s hp
  | step name act next ih =>
    intro t hst hinv hass
    obtain ⟨hkeep, hprom, hnext⟩ := hp t hst hinv hass
    exact ⟨hkeep, hprom, ih t hnext⟩

theorem Safe.attempt {Q' : Except ε' (Except ε α) → σ → Prop}
    (h : ∀ r s, Q r s → Q' (.ok r) s) (hp : Safe c Q p s) :
    Safe c Q' (p.attempt : Proc ℓ σ ε' (Except ε α)) s := by
  induction p generalizing s with
  | done r => exact h r s hp
  | step name act next ih =>
    intro t hst hinv hass
    obtain ⟨hkeep, hprom, hnext⟩ := hp t hst hinv hass
    exact ⟨hkeep, hprom, ih t hnext⟩

/-- What the others do before the program goes on is covered, if it is at its end too. -/
theorem Safe.after_rely
    (hstable : ∀ r s t, c.rely s t → c.inv t → Q r s → Q r t) {t : σ} (hst : c.rely s t)
    (hinv : c.inv t) (hp : Safe c Q p s) : Safe c Q p t := by
  cases p with
  | done r => exact hstable r s t hst hinv hp
  | step name act next => exact fun u htu => hp u (c.rely_trans hst htu)

/-! ## Rules -/

variable {P P' : σ → Prop} {Q Q' : α → σ → Prop} {E E' : ε → σ → Prop}

section
variable (h : Triple c P p Q E) (hpre : ∀ s, c.inv s → P' s → P s)
include h hpre

theorem Triple.conseq
    (hpost : ∀ a s, c.inv s → Q a s → Q' a s) (herr : ∀ e s, c.inv s → E e s → E' e s) :
    Triple c P' p Q' E' := by
  intro s hinv hP
  refine (h s hinv (hpre s hinv hP)).mono ?_
  rintro (e | a) t ⟨hinv, hend⟩
  · exact ⟨hinv, herr e t hinv hend⟩
  · exact ⟨hinv, hpost a t hinv hend⟩

theorem Triple.pre : Triple c P' p Q E := h.conseq hpre (fun _ _ _ h => h) fun _ _ _ h => h

end

theorem Triple.post (h : Triple c P p Q E) (hpost : ∀ a s, c.inv s → Q a s → Q' a s) :
    Triple c P p Q' E := h.conseq (fun _ _ h => h) hpost fun _ _ _ h => h

theorem ends_of_isOk {r : Except ε α} (h : r.isOk = true) (hQ : ∀ a, r = .ok a → Q a s) :
    ends Q E r s := by
  cases r with
  | error e => cases h
  | ok a => exact hQ a rfl

theorem Triple.pure {a : α} (h : ∀ s, c.inv s → P s → Q a s) :
    Triple c P (Pure.pure a : Proc ℓ σ ε α) Q E := fun s hinv hP => ⟨hinv, h s hinv hP⟩

theorem Triple.fail {e : ε} (h : ∀ s, c.inv s → P s → E e s) :
    Triple c P (Proc.fail e : Proc ℓ σ ε α) Q E := fun s hinv hP => ⟨hinv, h s hinv hP⟩

theorem Triple.bind {R : β → σ → Prop} (hp : Triple c P p Q E)
    (hf : ∀ a, Triple c (Q a) (f a) R E) :
    Triple c P (p >>= f) R E := by
  intro s hinv hP
  refine (hp s hinv hP).bind ?_ ?_
  · rintro a t ⟨hinv, hQ⟩
    exact hf a t hinv hQ
  · rintro e t h
    exact h

/-- What is known of the program's own values. -/
theorem Triple.given {R : Prop} (h : R → Triple c P p Q E) : Triple c (fun s => R ∧ P s) p Q E :=
  fun s hinv hP => h hP.1 s hinv hP.2

variable {name : ℓ}

theorem Triple.atomic {f : σ → Except ε α × σ} (hstable : c.Stable P)
    (hact : ∀ t, c.inv t → P t → c.assumed name t →
      c.inv (f t).2 ∧ c.promised name t (f t).2 ∧ ends Q E (f t).1 (f t).2) :
    Triple c P (Proc.atomic name f) Q E := by
  intro s _ hP t hst hinv hass
  obtain ⟨hkeep, hprom, hend⟩ := hact t hinv (hstable s t hst hP) hass
  exact ⟨hkeep, hprom, hkeep, hend⟩

theorem Triple.update {f : σ → σ} {Q : Unit → σ → Prop} (hstable : c.Stable P)
    (hact : ∀ t, c.inv t → P t → c.assumed name t →
      c.inv (f t) ∧ c.promised name t (f t) ∧ Q () (f t)) :
    Triple c P (Proc.update name f) Q E :=
  Triple.atomic (f := fun s => (.ok (), f s)) hstable hact

theorem Triple.read {f : σ → α} (hstable : c.Stable P)
    (hact : ∀ t, c.inv t → P t → c.assumed name t → c.promised name t t ∧ Q (f t) t) :
    Triple c P (Proc.read name f) Q E := by
  intro s _ hP t hst hinv hass
  obtain ⟨hprom, hend⟩ := hact t hinv (hstable s t hst hP) hass
  exact ⟨hinv, hprom, hinv, hend⟩

theorem Triple.attempt {R : Except ε α → σ → Prop} {E' : ε' → σ → Prop} (h : Triple c P p Q E)
    (hok : ∀ a s, c.inv s → Q a s → R (.ok a) s) (herr : ∀ e s, c.inv s → E e s → R (.error e) s) :
    Triple c P (p.attempt : Proc ℓ σ ε' (Except ε α)) R E' := by
  intro s hinv hP
  refine (h s hinv hP).attempt ?_
  rintro (e | a) t ⟨hinv, hend⟩
  · exact ⟨hinv, herr e t hinv hend⟩
  · exact ⟨hinv, hok a t hinv hend⟩

theorem Triple.forEach {f : α → Proc ℓ σ ε Unit} {rest : List α}
    (h : ∀ a ∈ rest, Triple c P (f a) (fun _ => P) E) :
    Triple c P (Proc.forEach f rest) (fun _ => P) E := by
  induction rest with
  | nil => exact .pure fun _ _ hP => hP
  | cons a rest ih =>
    exact (h a List.mem_cons_self).bind fun _ => ih fun b hb => h b (List.mem_cons_of_mem a hb)

/-- A loop whose invariant says what is still to come. -/
theorem Triple.forEach_rest {f : α → Proc ℓ σ ε Unit} {I : List α → σ → Prop}
    (h : ∀ a rest, Triple c (I (a :: rest)) (f a) (fun _ => I rest) E) (all : List α) :
    Triple c (I all) (Proc.forEach f all) (fun _ => I []) E := by
  induction all with
  | nil => exact .pure fun _ _ hI => hI
  | cons a rest ih => exact (h a rest).bind fun _ => ih

end Rules

/-! ## Interleaved runs -/

section Runs
variable {ℓ σ ε α : Type}

/-- The thread and its environment take turns. A thread that returned `a` may start again as
    `again a`; `allowed` restricts the steps the thread takes. -/
inductive Steps (env : σ → σ → Prop) (allowed : ℓ → σ → Prop)
    (again : α → Option (Proc ℓ σ ε α)) (start : σ × Proc ℓ σ ε α) :
    σ × Proc ℓ σ ε α → Prop
  | refl : Steps env allowed again start start
  | env {s t : σ} {p : Proc ℓ σ ε α} : Steps env allowed again start (s, p) → env s t →
      Steps env allowed again start (t, p)
  | act {s : σ} {name : ℓ} {act : σ → σ} {next : σ → Proc ℓ σ ε α} :
      Steps env allowed again start (s, .step name act next) → allowed name s →
      Steps env allowed again start (act s, next s)
  | again {s : σ} {a : α} {p : Proc ℓ σ ε α} :
      Steps env allowed again start (s, .done (.ok a)) → again a = some p →
      Steps env allowed again start (s, p)

/-- What a thread needs from its environment and from its own ending to be covered by a
    contract on every run. -/
structure Covered (c : Contract ℓ σ) (env : σ → σ → Prop) (allowed : ℓ → σ → Prop)
    (again : α → Option (Proc ℓ σ ε α)) (Q : Except ε α → σ → Prop) : Prop where
  env_inv : ∀ s t, env s t → c.inv s → c.inv t
  env_rely : ∀ s t, env s t → c.inv s → c.rely s t
  allowed_assumed : ∀ name s, allowed name s → c.assumed name s
  stable : ∀ r s t, c.rely s t → c.inv t → Q r s → Q r t
  restart : ∀ a p s, again a = some p → c.inv s → Q (.ok a) s → Safe c Q p s

variable {c : Contract ℓ σ} {env : σ → σ → Prop} {allowed : ℓ → σ → Prop}
  {again : α → Option (Proc ℓ σ ε α)} {Q : Except ε α → σ → Prop} {s : σ} {p : Proc ℓ σ ε α}
  {u v : σ × Proc ℓ σ ε α}

section
variable (hcov : Covered c env allowed again Q) (hinv : c.inv s) (hp : Safe c Q p s)
include hcov hinv hp

theorem Steps.sound (h : Steps env allowed again (s, p) u) : c.inv u.1 ∧ Safe c Q u.2 u.1 := by
  induction h with
  | refl => exact ⟨hinv, hp⟩
  | env _ hst ih =>
    have hkeep := hcov.env_inv _ _ hst ih.1
    exact ⟨hkeep, ih.2.after_rely hcov.stable (hcov.env_rely _ _ hst ih.1) hkeep⟩
  | act _ hallow ih =>
    obtain ⟨hkeep, -, hnext⟩ :=
      ih.2 _ (c.rely_refl _) ih.1 (hcov.allowed_assumed _ _ hallow)
    exact ⟨hkeep, hnext⟩
  | again _ hagain ih => exact ⟨ih.1, hcov.restart _ _ _ hagain ih.1 ih.2⟩

/-- Every step the thread takes on a run is as promised. -/
theorem Steps.promised {t : σ} {name : ℓ} {act : σ → σ} {next : σ → Proc ℓ σ ε α}
    (h : Steps env allowed again (s, p) (t, .step name act next)) (hallow : allowed name t) :
    c.promised name t (act t) := by
  obtain ⟨hinv', hsafe⟩ := h.sound hcov hinv hp
  exact (hsafe t (c.rely_refl t) hinv' (hcov.allowed_assumed name t hallow)).2.1

end

theorem Steps.trans {w : σ × Proc ℓ σ ε α} (huv : Steps env allowed again u v)
    (hvw : Steps env allowed again v w) : Steps env allowed again u w := by
  induction hvw with
  | refl => exact huv
  | env _ hst ih => exact ih.env hst
  | act _ hallow ih => exact ih.act hallow
  | again _ hagain ih => exact ih.again hagain

theorem Steps.mono {env' : σ → σ → Prop} {allowed' : ℓ → σ → Prop}
    (henv : ∀ s t, env s t → env' s t) (hallow : ∀ name s, allowed name s → allowed' name s)
    (h : Steps env allowed again u v) : Steps env' allowed' again u v := by
  induction h with
  | refl => exact .refl
  | env _ hst ih => exact ih.env (henv _ _ hst)
  | act _ hal ih => exact ih.act (hallow _ _ hal)
  | again _ hagain ih => exact ih.again hagain

/-- What neither the others nor a promised step can undo stays for the rest of the run. -/
theorem Steps.preserved {K : σ → Prop} (hcov : Covered c env allowed again Q) (hinv : c.inv s)
    (hp : Safe c Q p s) (hrely : ∀ s t, c.rely s t → K s → K t)
    (hprom : ∀ name s t, c.promised name s t → K s → K t) (h : Steps env allowed again (s, p) u)
    (hv : Steps env allowed again u v) (hK : K u.1) : K v.1 := by
  induction hv with
  | refl => exact hK
  | env hrun hst ih =>
    exact hrely _ _ (hcov.env_rely _ _ hst ((h.trans hrun).sound hcov hinv hp).1) ih
  | act hrun hallow ih => exact hprom _ _ _ ((h.trans hrun).promised hcov hinv hp hallow) ih
  | again _ _ ih => exact ih

/-! ## Playing a schedule -/

/-- Whose turn it is: one of the environment's moves, or the thread's. -/
inductive Turn (κ : Type)
  | env (move : κ)
  | own
  deriving DecidableEq, Repr

variable {κ : Type}

/-- Play a schedule of turns; a step that is not allowed ends the play. -/
def play (moves : κ → σ → Option σ) (allowed : ℓ → σ → Bool) (again : α → Option (Proc ℓ σ ε α)) :
    List (Turn κ) → σ × Proc ℓ σ ε α → Option (σ × Proc ℓ σ ε α)
  | [], u => some u
  | .env move :: rest, (s, p) =>
    (moves move s).bind fun t => play moves allowed again rest (t, p)
  | .own :: rest, (s, .step name act next) =>
    if allowed name s then play moves allowed again rest (act s, next s) else none
  | .own :: rest, (s, .done (.ok a)) =>
    (again a).bind fun p => play moves allowed again rest (s, p)
  | .own :: _, (_, .done (.error _)) => none

theorem Steps.play {moves : κ → σ → Option σ} {allowed : ℓ → σ → Bool} {start : σ × Proc ℓ σ ε α}
    {turns : List (Turn κ)}
    (h : Steps (fun s t => ∃ move, moves move s = some t) (fun name s => allowed name s = true)
      again start u) (hplay : Lib.play moves allowed again turns u = some v) :
    Steps (fun s t => ∃ move, moves move s = some t) (fun name s => allowed name s = true)
      again start v := by
  induction turns generalizing u with
  | nil =>
    cases hplay
    exact h
  | cons turn rest ih =>
    obtain ⟨s, p⟩ := u
    cases turn with
    | env move =>
      obtain ⟨t, ht, hrest⟩ := Option.bind_eq_some_iff.mp hplay
      exact ih (h.env ⟨move, ht⟩) hrest
    | own =>
      cases p with
      | step name act next =>
        unfold Lib.play at hplay
        split at hplay
        · next hallow =>
          exact ih (h.act hallow) hplay
        · cases hplay
      | done r =>
        cases r with
        | error e => cases hplay
        | ok a =>
          obtain ⟨p, hp, hrest⟩ := Option.bind_eq_some_iff.mp hplay
          exact ih (h.again hp) hrest

end Runs

end FlyOnTheWall.Lib
