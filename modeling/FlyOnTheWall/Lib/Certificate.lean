/-
  Records that vouch for a sequence piece by piece.

  `Certifies digest lo hi sum a rs xs` says that the records `rs`, read in order, cut the
  sequence `xs` into pieces from position `a` on, and that each record carries the digest of
  its piece.

  * `certifies_iff`: the records tile the positions, and each digest is that of the elements
    the record covers.
  * `Certifies.data_unique`, `Certifies.length_unique`, `Certifies.order_unique`,
    `Certifies.record_unique`: nothing else is vouched for by the same records, and no other
    number, order or replacement of one of them vouches for the same elements.
-/
import FlyOnTheWall.Lib.Tiling
import Mathlib.Data.List.Sort

namespace FlyOnTheWall.Lib
open List

variable {α δ ρ : Type*} {digest : List α → δ} {lo hi : ρ → ℕ} {sum : ρ → δ}

def Certifies (digest : List α → δ) (lo hi : ρ → ℕ) (sum : ρ → δ) : ℕ → List ρ → List α → Prop
  | _, [], xs => xs = []
  | a, r :: rs, xs => lo r = a ∧ a < hi r ∧ hi r - a ≤ xs.length ∧
      sum r = digest (xs.take (hi r - a)) ∧
      Certifies digest lo hi sum (hi r) rs (xs.drop (hi r - a))

variable {a : ℕ} {rs : List ρ} {xs : List α} {ys : List α}

theorem Certifies.tiles (h : Certifies digest lo hi sum a rs xs) :
    Tiles lo hi a rs (a + xs.length) := by
  induction rs generalizing a xs with
  | nil =>
    obtain rfl : xs = [] := h
    rfl
  | cons r rs ih =>
    obtain ⟨hlo, hlt, hlen, -, hrest⟩ := h
    refine ⟨hlo, hlt, ?_⟩
    have htiles := ih hrest
    rw [length_drop] at htiles
    have hend : hi r + (xs.length - (hi r - a)) = a + xs.length := by omega
    rw [hend] at htiles
    exact htiles

/-- The records lie end to end over the whole sequence, and each digest is that of exactly the
    elements its record covers. -/
theorem certifies_iff : Certifies digest lo hi sum a rs xs ↔ Tiles lo hi a rs (a + xs.length) ∧
      ∀ r ∈ rs, sum r = digest ((xs.drop (lo r - a)).take (hi r - lo r)) := by
  induction rs generalizing a xs with
  | nil =>
    constructor
    · intro h
      exact ⟨h.tiles, fun r hr => nomatch hr⟩
    · rintro ⟨htiles, -⟩
      have hlen : a = a + xs.length := htiles
      exact eq_nil_of_length_eq_zero (by omega)
  | cons r rs ih =>
    constructor
    · intro h
      refine ⟨h.tiles, ?_⟩
      obtain ⟨rfl, hlt, hlen, hsum, hrest⟩ := h
      obtain ⟨htiles, hall⟩ := ih.mp hrest
      intro q hq
      rcases mem_cons.mp hq with rfl | hq
      · rw [Nat.sub_self, drop_zero]
        exact hsum
      · have hle := htiles.le_lo hq
        rw [hall q hq, drop_drop]
        congr 3
        omega
    · rintro ⟨htiles, hall⟩
      obtain ⟨rfl, hlt, hrest⟩ := htiles
      have hle := hrest.le
      have hsum := hall r mem_cons_self
      rw [Nat.sub_self, drop_zero] at hsum
      refine ⟨rfl, hlt, by omega, hsum, ih.mpr ⟨?_, fun q hq => ?_⟩⟩
      · rw [length_drop]
        have hend : hi r + (xs.length - (hi r - lo r)) = lo r + xs.length := by omega
        rw [hend]
        exact hrest
      · have hle := hrest.le_lo hq
        rw [hall q (mem_cons_of_mem r hq), drop_drop]
        congr 3
        omega

theorem Certifies.concat (h : Certifies digest lo hi sum a rs xs) {r : ρ}
    (hlo : lo r = a + xs.length) (hhi : hi r = lo r + ys.length) (hne : ys ≠ [])
    (hsum : sum r = digest ys) : Certifies digest lo hi sum a (rs ++ [r]) (xs ++ ys) := by
  have hpos : 0 < ys.length := length_pos_iff.mpr hne
  have htiles : Tiles lo hi a (rs ++ [r]) (hi r) := h.tiles.concat hlo (by omega)
  refine certifies_iff.mpr ⟨?_, ?_⟩
  · rw [length_append, ← Nat.add_assoc, ← hlo, ← hhi]
    exact htiles
  · intro q hq
    rcases mem_append.mp hq with hq | hq
    · obtain ⟨htiles, hall⟩ := certifies_iff.mp h
      have hin := htiles.hi_le hq
      have hle := htiles.le_lo hq
      have hlt := htiles.lo_lt hq
      rw [hall q hq, drop_append_of_le_length (by omega),
        take_append_of_le_length (by rw [length_drop]; omega)]
    · obtain rfl := mem_singleton.mp hq
      rw [hsum, hlo, Nat.add_sub_cancel_left, drop_left, hhi, hlo, Nat.add_sub_cancel_left,
        take_length]

/-! ## Nothing else is vouched for -/

/-- With an injective digest the records determine the elements. -/
theorem Certifies.data_unique (hinj : Function.Injective digest)
    (hxs : Certifies digest lo hi sum a rs xs) (hys : Certifies digest lo hi sum a rs ys) :
    xs = ys := by
  induction rs generalizing a xs ys with
  | nil =>
    obtain rfl : xs = [] := hxs
    obtain rfl : ys = [] := hys
    rfl
  | cons r rs ih =>
    obtain ⟨-, -, -, hsum, hrest⟩ := hxs
    obtain ⟨-, -, -, hsum', hrest'⟩ := hys
    have hhead := hinj (hsum.symm.trans hsum')
    rw [← take_append_drop (hi r - a) xs, ← take_append_drop (hi r - a) ys, hhead, ih hrest hrest']

/-- Records cannot be added to a covered sequence. -/
theorem Certifies.length_unique {more : List ρ} (h : Certifies digest lo hi sum a rs xs)
    (hmore : Certifies digest lo hi sum a (rs ++ more) xs) : more = [] :=
  h.tiles.append_eq_nil hmore.tiles

theorem Certifies.order_unique {rs' : List ρ} (h : Certifies digest lo hi sum a rs xs)
    (h' : Certifies digest lo hi sum a rs' xs) (hperm : rs'.Perm rs) : rs' = rs :=
  hperm.eq_of_pairwise (fun q r _ _ hqr hrq => absurd (lt_trans hqr hrq) (lt_irrefl _))
    h'.tiles.sorted h.tiles.sorted

/-- A record cannot be replaced by one that says something else of the elements. -/
theorem Certifies.record_unique {before after : List ρ} {r r' : ρ}
    (h : Certifies digest lo hi sum a (before ++ r :: after) xs)
    (h' : Certifies digest lo hi sum a (before ++ r' :: after) xs) :
    lo r' = lo r ∧ hi r' = hi r ∧ sum r' = sum r := by
  induction before generalizing a xs with
  | cons q before ih => exact ih h.2.2.2.2 h'.2.2.2.2
  | nil =>
    obtain ⟨hlo, hlt, hlen, hsum, hrest⟩ := h
    obtain ⟨hlo', hlt', hlen', hsum', hrest'⟩ := h'
    have hhi : hi r' = hi r := by
      cases after with
      | nil =>
        have hend := congrArg length (show xs.drop (hi r - a) = [] from hrest)
        have hend' := congrArg length (show xs.drop (hi r' - a) = [] from hrest')
        simp only [length_drop, length_nil] at hend hend'
        omega
      | cons q after => exact hrest'.1.symm.trans hrest.1
    refine ⟨hlo'.trans hlo.symm, hhi, ?_⟩
    rw [hsum, hsum', hhi]

end FlyOnTheWall.Lib
