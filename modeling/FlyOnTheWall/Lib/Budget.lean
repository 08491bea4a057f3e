/-
  Shedding weight down to a budget, over an arbitrary type of items.

  `shed w budget total xs` walks `xs` in order and takes items while `total`, less what
  was taken already, is over `budget`. The facts below are the whole interface: the result
  is a prefix (`shed_isPrefix`), it is the SHORTEST prefix that is enough (`shed_minimal`),
  and it is everything when nothing is enough (`shed_eq_self_of_over`).
-/
import Mathlib.Algebra.GroupWithZero.Nat
import Mathlib.Algebra.BigOperators.Group.List.Basic

namespace FlyOnTheWall.Lib
open List

variable {α : Type*} (w : α → ℕ) (budget : ℕ)

/-- The items taken, in order, until the total fits the budget. -/
def shed : ℕ → List α → List α
  | _, [] => []
  | total, x :: xs => if total ≤ budget then [] else x :: shed (total - w x) xs

/-- The weight of a list. -/
def weight (xs : List α) : ℕ := (xs.map w).sum

@[simp] theorem weight_nil : weight w [] = 0 := rfl

@[simp] theorem weight_cons (x : α) (xs : List α) : weight w (x :: xs) = w x + weight w xs := by
  simp [weight]

@[simp] theorem weight_append (xs ys : List α) :
    weight w (xs ++ ys) = weight w xs + weight w ys := by
  simp [weight]

variable {xs : List α} {ys : List α}

theorem weight_perm (h : xs.Perm ys) : weight w xs = weight w ys := (h.map w).sum_eq

theorem weight_filter_add (p : α → Bool) (xs : List α) :
    weight w (xs.filter p) + weight w (xs.filter fun x => !p x) = weight w xs := by
  rw [← weight_append]
  exact weight_perm w (filter_append_perm p xs)

theorem weight_filter_le (p : α → Bool) (xs : List α) : weight w (xs.filter p) ≤ weight w xs := by
  have := weight_filter_add w p xs
  omega

theorem weight_prefix_le (h : xs <+: ys) : weight w xs ≤ weight w ys := by
  obtain ⟨t, rfl⟩ := h
  rw [weight_append]
  exact Nat.le_add_right _ _

/-- Two filters that differ only on weightless items keep the same weight. -/
theorem weight_filter_congr {p q : α → Bool} (h : ∀ x ∈ xs, w x = 0 ∨ p x = q x) :
    weight w (xs.filter p) = weight w (xs.filter q) := by
  induction xs with
  | nil => rfl
  | cons x xs ih =>
    have hx := ih fun y hy => h y (mem_cons_of_mem _ hy)
    rcases h x mem_cons_self with h0 | hpq
    · cases hp : p x <;> cases hq : q x <;> simp [hp, hq, h0, hx]
    · cases hp : p x <;> simp [hp, ← hpq, hx]

theorem shed_of_le {total : ℕ} (h : total ≤ budget) (xs : List α) :
    shed w budget total xs = [] := by
  cases xs with
  | nil => rfl
  | cons x xs => simp [shed, h]

theorem shed_cons_of_lt {total : ℕ} (h : budget < total) (x : α) (xs : List α) :
    shed w budget total (x :: xs) = x :: shed w budget (total - w x) xs := by
  simp [shed, Nat.not_le.mpr h]

section
variable (total : ℕ) (xs : List α)

theorem shed_isPrefix : shed w budget total xs <+: xs := by
  induction xs generalizing total with
  | nil => exact prefix_rfl
  | cons x xs ih =>
    by_cases h : total ≤ budget
    · rw [shed_of_le w budget h]
      exact nil_prefix
    · rw [shed_cons_of_lt w budget (Nat.not_le.mp h)]
      exact cons_prefix_cons.mpr ⟨rfl, ih _⟩

/-- With a larger budget the walk stops no later. -/
theorem shed_add_isPrefix (more : ℕ) :
    shed w (budget + more) total xs <+: shed w budget total xs := by
  induction xs generalizing total with
  | nil => exact prefix_rfl
  | cons x xs ih =>
    by_cases h : total ≤ budget + more
    · rw [shed_of_le w _ h]
      exact nil_prefix
    · rw [shed_cons_of_lt w _ (Nat.not_le.mp h), shed_cons_of_lt w _ (by omega)]
      exact cons_prefix_cons.mpr ⟨rfl, ih _⟩

/-- No shorter prefix is enough: before each item taken the total is still over budget. -/
theorem shed_minimal (k : ℕ)
    (hk : k < (shed w budget total xs).length) : budget < total - weight w (xs.take k) := by
  induction xs generalizing total k with
  | nil => simp [shed] at hk
  | cons x xs ih =>
    by_cases h : total ≤ budget
    · simp [shed_of_le w budget h] at hk
    · rw [shed_cons_of_lt w budget (Nat.not_le.mp h)] at hk
      cases k with
      | zero => simpa using Nat.not_le.mp h
      | succ k =>
        have hi := ih (total - w x) k (by simpa using hk)
        simp only [take_succ_cons, weight_cons]
        omega

/-- What is taken is enough, unless everything was taken. -/
theorem shed_enough :
    total - weight w (shed w budget total xs) ≤ budget ∨ shed w budget total xs = xs := by
  induction xs generalizing total with
  | nil => exact .inr rfl
  | cons x xs ih =>
    by_cases h : total ≤ budget
    · exact .inl (by rw [shed_of_le w budget h]; simpa using h)
    · rw [shed_cons_of_lt w budget (Nat.not_le.mp h)]
      rcases ih (total - w x) with hi | hi
      · left
        simp only [weight_cons]
        omega
      · exact .inr (by rw [hi])

theorem shed_eq_self_of_over (h : budget < total - weight w (shed w budget total xs)) :
    shed w budget total xs = xs := by
  rcases shed_enough w budget total xs with hi | hi
  · omega
  · exact hi

end

end FlyOnTheWall.Lib
