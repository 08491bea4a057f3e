/-
  Runs of a labelled system whose step function may refuse a label.

  `Run step guard s labels t` is a run from `s` to `t` in which every step taken meets
  `guard`; a guard that always holds gives all runs. An invariant is proved for one step
  and holds at the end of every run.
-/
import Mathlib.Data.Option.Basic

namespace FlyOnTheWall.Lib

variable {σ ι : Type*}

inductive Run (step : σ → ι → Option σ) (guard : σ → ι → Prop) : σ → List ι → σ → Prop
  | nil (s : σ) : Run step guard s [] s
  | cons {s t u : σ} {i : ι} {labels : List ι} : guard s i → step s i = some t →
      Run step guard t labels u → Run step guard s (i :: labels) u

/-- The state a list of labels leads to, if every step is taken and meets the guard. -/
def runAll (step : σ → ι → Option σ) (guard : σ → ι → Bool) : σ → List ι → Option σ
  | s, [] => some s
  | s, i :: labels =>
    if guard s i then
      match step s i with
      | none => none
      | some t => runAll step guard t labels
    else none

variable {step : σ → ι → Option σ} {s t : σ} {labels : List ι}

theorem run_of_runAll {guard : σ → ι → Bool} (h : runAll step guard s labels = some t) :
    Run step (guard · ·) s labels t := by
  induction labels generalizing s with
  | nil =>
    cases h
    exact .nil _
  | cons i labels ih =>
    unfold runAll at h
    split at h
    · next hg =>
      cases hs : step s i with
      | none =>
        rw [hs] at h
        cases h
      | some u =>
        rw [hs] at h
        exact .cons hg hs (ih h)
    · cases h

theorem Run.invariant {guard : σ → ι → Prop} {P : σ → Prop}
    (hstep : ∀ s i t, P s → guard s i → step s i = some t → P t)
    (h : Run step guard s labels t) (hs : P s) : P t := by
  induction h with
  | nil => exact hs
  | cons hg hi _ ih => exact ih (hstep _ _ _ hs hg hi)

end FlyOnTheWall.Lib
