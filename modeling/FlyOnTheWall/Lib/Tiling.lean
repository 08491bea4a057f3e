/-
  Lists of intervals laid end to end.

  `Tiles lo hi a xs b` says that the half-open intervals `[lo x, hi x)` of `xs`, read in
  order, start at `a`, continue each where the one before ends, and end at `b`. Every
  point from `a` to `b` then lies in exactly one of them (`Tiles.countP_eq_one`).
-/
import Mathlib.Order.Lattice

namespace FlyOnTheWall.Lib
open List

variable {α ι : Type*} [LinearOrder ι]

def Tiles (lo hi : α → ι) : ι → List α → ι → Prop
  | a, [], b => a = b
  | a, x :: xs, b => lo x = a ∧ a < hi x ∧ Tiles lo hi (hi x) xs b

variable {lo hi : α → ι} {a b : ι} {xs : List α}

theorem Tiles.le (h : Tiles lo hi a xs b) : a ≤ b := by
  induction xs generalizing a with
  | nil => exact le_of_eq h
  | cons x xs ih => exact (le_of_lt h.2.1).trans (ih h.2.2)

variable {x : α}

section
variable (h : Tiles lo hi a xs b)
include h

theorem Tiles.lo_lt (hx : x ∈ xs) : lo x < b := by
  induction xs generalizing a with
  | nil => cases hx
  | cons y ys ih =>
    rcases mem_cons.mp hx with rfl | hx
    · rw [h.1]
      exact lt_of_lt_of_le h.2.1 h.2.2.le
    · exact ih h.2.2 hx

theorem Tiles.hi_le (hx : x ∈ xs) : hi x ≤ b := by
  induction xs generalizing a with
  | nil => cases hx
  | cons y ys ih =>
    rcases mem_cons.mp hx with rfl | hx
    · exact h.2.2.le
    · exact ih h.2.2 hx

theorem Tiles.le_lo (hx : x ∈ xs) : a ≤ lo x := by
  induction xs generalizing a with
  | nil => cases hx
  | cons y ys ih =>
    rcases mem_cons.mp hx with rfl | hx
    · exact le_of_eq h.1.symm
    · exact (le_of_lt h.2.1).trans (ih h.2.2 hx)

theorem Tiles.sorted : xs.Pairwise (fun x y => lo x < lo y) := by
  induction xs generalizing a with
  | nil => exact Pairwise.nil
  | cons x xs ih =>
    refine Pairwise.cons (fun y hy => ?_) (ih h.2.2)
    rw [h.1]
    exact lt_of_lt_of_le h.2.1 (h.2.2.le_lo hy)

theorem Tiles.append_eq_nil {ys : List α} (hmore : Tiles lo hi a (xs ++ ys) b) : ys = [] := by
  induction xs generalizing a with
  | nil =>
    obtain rfl : a = b := h
    cases ys with
    | nil => rfl
    | cons y ys => exact absurd hmore.2.2.le (not_le.mpr hmore.2.1)
  | cons x xs ih => exact ih h.2.2 hmore.2.2

/-- An interval that starts where the tiling ends extends it. -/
theorem Tiles.concat (hlo : lo x = b) (hlt : b < hi x) : Tiles lo hi a (xs ++ [x]) (hi x) := by
  induction xs generalizing a with
  | nil =>
    obtain rfl : a = b := h
    exact ⟨hlo, hlt, rfl⟩
  | cons y ys ih => exact ⟨h.1, h.2.1, ih h.2.2⟩

theorem Tiles.countP_eq_zero {n : ι} (hn : n < a) :
    xs.countP (fun x => decide (lo x ≤ n ∧ n < hi x)) = 0 := by
  induction xs generalizing a with
  | nil => rfl
  | cons x xs ih =>
    have hout : ¬(lo x ≤ n ∧ n < hi x) := fun hx => absurd hn (not_lt.mpr (h.1 ▸ hx.1))
    rw [countP_cons, ih h.2.2 (hn.trans h.2.1)]
    simp [hout]

/-- No gap and no overlap. -/
theorem Tiles.countP_eq_one {n : ι} (hle : a ≤ n) (hlt : n < b) :
    xs.countP (fun x => decide (lo x ≤ n ∧ n < hi x)) = 1 := by
  induction xs generalizing a with
  | nil =>
    obtain rfl : a = b := h
    exact absurd hlt (not_lt.mpr hle)
  | cons x xs ih =>
    rw [countP_cons]
    rcases lt_or_ge n (hi x) with hin | hout
    · have hx : lo x ≤ n ∧ n < hi x := ⟨h.1 ▸ hle, hin⟩
      rw [h.2.2.countP_eq_zero hin]
      simp [hx]
    · have hx : ¬(lo x ≤ n ∧ n < hi x) := fun hx => absurd hx.2 (not_lt.mpr hout)
      rw [ih h.2.2 hout]
      simp [hx]

end

end FlyOnTheWall.Lib
