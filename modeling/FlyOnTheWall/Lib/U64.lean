/-
  Unsigned 64-bit arithmetic on ℕ, as a release build computes it: sums and differences
  wrap, the `saturating_` operations stop at the top and the `checked_` ones fail. Each operation
  comes with the bound under which it is the exact one.
-/
import FlyOnTheWall.Lib.Budget

namespace FlyOnTheWall.Lib

/-- `u64::MAX`. -/
def u64Max : ℕ := 2 ^ 64 - 1

/-- The sum of a list. -/
def u64Sum {α : Type*} (w : α → ℕ) (xs : List α) : ℕ := weight w xs % 2 ^ 64

variable (a b : ℕ)

/-- Subtraction; below zero it wraps. -/
def u64Sub : ℕ := if b ≤ a then a - b else 2 ^ 64 - (b - a)

def checkedAdd : Option ℕ := if a + b ≤ u64Max then some (a + b) else none

def checkedMul : Option ℕ := if a * b ≤ u64Max then some (a * b) else none

def checkedSub : Option ℕ := if b ≤ a then some (a - b) else none

def saturatingAdd : ℕ := min (a + b) u64Max

def saturatingMul : ℕ := min (a * b) u64Max

theorem u64Sum_eq {α : Type*} {w : α → ℕ} {xs : List α} (h : weight w xs ≤ u64Max) :
    u64Sum w xs = weight w xs := Nat.mod_eq_of_lt (by unfold u64Max at h; omega)

variable {a b c : ℕ}

theorem checkedAdd_eq_some : checkedAdd a b = some c ↔ a + b ≤ u64Max ∧ a + b = c := by
  unfold checkedAdd
  split <;> simp [*]

theorem checkedMul_eq_some : checkedMul a b = some c ↔ a * b ≤ u64Max ∧ a * b = c := by
  unfold checkedMul
  split <;> simp [*]

theorem checkedSub_eq_some : checkedSub a b = some c ↔ b ≤ a ∧ a - b = c := by
  unfold checkedSub
  split <;> simp [*]

theorem u64Sub_eq (h : b ≤ a) : u64Sub a b = a - b := if_pos h

end FlyOnTheWall.Lib
