/-
  The retry table of the GitHub exporter, shared by the threads that push meetings.

  The table is changed and copied under its lock, and the copy is written to the library after
  the lock is released. A step is one thread's turn under a lock. The claim on a meeting in
  flight, and that a receipt is lost once at most and by a push that lands, only exclude
  interleavings and are left out.
-/
import FlyOnTheWall.Lib.Run
import Mathlib.Algebra.Group.Nat.Defs
import Mathlib.Data.Fintype.Basic

namespace FlyOnTheWall.Github

open Function Lib

structure Backoff where
  failures : ℕ
  retryAtMs : ℕ
  reason : String

/-- The wait after so many failures; the last of the schedule is repeated. -/
def backoffMs (schedule : List ℕ) (failures : ℕ) : ℕ :=
  schedule.getD (min (max failures 1 - 1) (schedule.length - 1)) 0

inductive Failure where
  | stallsEveryPush
  | own (now : ℕ) (reason : String)

variable (κ : Type)

inductive Act where
  | begin (m : κ)
  | prepareFailed (m : κ) (e : Failure)
  | receiptLost (now : ℕ)
  | landed
  | failed (e : Failure)
  | persistRetries (written : Bool)

/-- The push a thread is in, with the failures read at its start, and the copy of the table it
    has still to write. -/
structure Thread where
  push : Option (κ × Option ℕ) := none
  copy : Option (κ → Option Backoff) := none

structure Exporter (n : ℕ) where
  failedAuto : κ → Option Backoff
  stored : κ → Option Backoff
  threads : Fin n → Thread κ

namespace Exporter

variable {κ : Type} {n : ℕ}

/-- A start of the daemon reads the table back. -/
def new (stored : κ → Option Backoff) : Exporter κ n := ⟨stored, stored, fun _ => {}⟩

variable (s : Exporter κ n)

def failuresOf (m : κ) : Option ℕ := (s.failedAuto m).map (·.failures)

def put (i : Fin n) (thread : Thread κ) : Exporter κ n :=
  { s with threads := update s.threads i thread }

/-- The table is changed and copied. -/
def change (i : Fin n) (table : κ → Option Backoff) (push : Option (κ × Option ℕ)) : Exporter κ n :=
  { s.put i ⟨push, some table⟩ with failedAuto := table }

section
variable [DecidableEq κ]

variable (schedule : List ℕ) (s : Exporter κ n)

/-- The counters are a `u32` and a `u64`, and saturate. -/
def enterBackoff (i : Fin n) (m : κ) (now : ℕ)
    (reason : String) (push : Option (κ × Option ℕ)) : Exporter κ n :=
  let failures := min ((s.failuresOf m).getD 0 + 1) (2 ^ 32 - 1)
  let retryAtMs := min (now + backoffMs schedule failures) (2 ^ 64 - 1)
  s.change i (update s.failedAuto m (some ⟨failures, retryAtMs, reason⟩)) push

def recordFailure (i : Fin n) (m : κ) : Failure → Exporter κ n
  | .stallsEveryPush => s.put i {}
  | .own now reason => enterBackoff schedule s i m now reason none

/-- A table that could not be written is logged and forgotten. -/
def step (l : Fin n × Act κ) : Option (Exporter κ n) :=
  match s.threads l.1, l.2 with
  | ⟨none, none⟩, .begin m => some (s.put l.1 { push := (m, s.failuresOf m) })
  | ⟨none, none⟩, .prepareFailed m e => some (recordFailure schedule s l.1 m e)
  | ⟨some (m, before), none⟩, .receiptLost now => some (enterBackoff schedule s l.1 m now
      "pushed, but the receipt could not be saved" (m, before))
  | ⟨some (m, before), none⟩, .landed => some
      (if s.failuresOf m = before ∧ (s.failedAuto m).isSome then
        s.change l.1 (update s.failedAuto m none) none
      else s.put l.1 {})
  | ⟨some (m, _), none⟩, .failed e => some (recordFailure schedule s l.1 m e)
  | ⟨push, some table⟩, .persistRetries written =>
    some { s.put l.1 { push } with stored := if written then table else s.stored }
  | _, _ => none

end

/-- Some thread has an up-to-date copy to write. -/
def Current (s : Exporter κ n) : Prop := ∃ i, (s.threads i).copy = some s.failedAuto

/-- Whenever a copy is written, it or another one still to be written is up to date; and no
    writing fails. -/
def InOrder (s : Exporter κ n) : Fin n × Act κ → Prop
  | (_, .persistRetries written) => written = true ∧ s.Current
  | _ => True

/-- The table is stored, or is going to be. -/
def Saved (s : Exporter κ n) : Prop := s.stored = s.failedAuto ∨ s.Current

variable {s t : Exporter κ n} {i : Fin n}

theorem Saved.put (h : s.Saved) (hi : (s.threads i).copy = none) (push : Option (κ × Option ℕ)) :
    (s.put i { push }).Saved := by
  refine h.imp_right ?_
  rintro ⟨j, hj⟩
  have hji : j ≠ i := by
    rintro rfl
    cases hi.symm.trans hj
  exact ⟨j, by simpa [Exporter.put, hji] using hj⟩

theorem change_saved (table : κ → Option Backoff) (push : Option (κ × Option ℕ)) :
    (s.change i table push).Saved :=
  .inr ⟨i, by simp [change, Exporter.put]⟩

variable [DecidableEq κ]

theorem Saved.recordFailure (h : s.Saved) (hi : (s.threads i).copy = none) (schedule : List ℕ)
    (m : κ) (e : Failure) : (recordFailure schedule s i m e).Saved := by
  cases e with
  | stallsEveryPush => exact h.put hi none
  | own now reason => exact change_saved _ _

theorem Saved.step {schedule : List ℕ} {l : Fin n × Act κ} (h : s.Saved) (horder : s.InOrder l)
    (hstep : step schedule s l = some t) : t.Saved := by
  obtain ⟨i, act⟩ := l
  dsimp only [Exporter.step] at hstep
  split at hstep <;> cases hstep
  · next m hi => exact h.put (by rw [hi]) _
  · next m e hi => exact h.recordFailure (by rw [hi]) schedule m e
  · exact change_saved _ _
  · next m before hi =>
    split
    · exact change_saved _ _
    · exact h.put (by rw [hi]) none
  · next m before e hi => exact h.recordFailure (by rw [hi]) schedule m e
  · next push table written hi =>
    obtain ⟨rfl, j, hj⟩ := horder
    by_cases hji : j = i
    · rw [hji, hi] at hj
      exact .inl (Option.some.inj hj)
    · exact .inr ⟨j, by simpa [Exporter.put, hji] using hj⟩

end Exporter

end FlyOnTheWall.Github
