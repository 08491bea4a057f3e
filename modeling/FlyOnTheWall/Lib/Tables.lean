/-
  Rows under unique indexes and foreign keys.

  An index gives a row a key, or none if it does not cover the row; two rows clash when one
  index covers both with one key. A reference of a row is a condition that some row must
  meet. Nothing here says what a row is.

  * `admits`: what an insert asks of the rows that are there.
  * `Consistent`: no two rows clash. It does not depend on the order of the rows
    (`Consistent.apart`), and each row was admitted by any others.
  * `resolved`: every reference of a row is met.
-/
import Mathlib.Data.List.Pairwise

namespace FlyOnTheWall.Lib

variable {ρ κ : Type} [DecidableEq κ]

variable (indexes : List (ρ → Option κ))

def clash (a b : ρ) : Bool :=
  indexes.any fun key => (key a).isSome && key a == key b

def admits (rows : List ρ) (r : ρ) : Bool :=
  rows.all fun q => !clash indexes q r

def Consistent (rows : List ρ) : Prop :=
  rows.Pairwise fun a b => clash indexes a b = false

variable {indexes : List (ρ → Option κ)} {rows : List ρ} {a b r : ρ}

theorem clash_comm : clash indexes a b = clash indexes b a := by
  unfold clash
  congr 1
  funext key
  cases ha : key a with
  | none => cases key b <;> simp
  | some x =>
    cases hb : key b with
    | none => simp
    | some y => simp [eq_comm]

theorem clash_of_key (key : ρ → Option κ) (hkey : key ∈ indexes) (ha : (key a).isSome)
    (hab : key a = key b) : clash indexes a b = true := by
  refine List.any_eq_true.mpr ⟨key, hkey, ?_⟩
  rw [ha, hab]
  simp

theorem admits_eq_true : admits indexes rows r = true ↔ ∀ q ∈ rows, clash indexes q r = false := by
  simp [admits]

/-- Two different rows of a consistent table do not clash, wherever they stand. -/
theorem Consistent.apart (h : Consistent indexes rows) (ha : a ∈ rows) (hb : b ∈ rows)
    (hab : a ≠ b) : clash indexes a b = false := by
  have hsymm : Std.Symm fun a b => clash indexes a b = false :=
    ⟨fun _ _ h => clash_comm.trans h⟩
  exact List.Pairwise.forall h ha hb hab

/-- An index that covers a row finds no other. -/
theorem Consistent.eq_of_key (h : Consistent indexes rows) (key : ρ → Option κ)
    (hkey : key ∈ indexes) (ha : a ∈ rows) (hb : b ∈ rows) (hsome : (key a).isSome)
    (hab : key a = key b) : a = b := by
  by_contra hne
  have hclash := clash_of_key key hkey hsome hab
  rw [h.apart ha hb hne] at hclash
  cases hclash

/-! ## References -/

def resolved (refs : ρ → List (ρ → Bool)) (rows : List ρ) (r : ρ) : Bool :=
  (refs r).all fun target => rows.any target

end FlyOnTheWall.Lib
