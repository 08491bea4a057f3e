/-
  A publication ledger: values accepted on a clock, epoch by epoch, and published from the
  front.

  A `Cell` is one published value with its place: the epoch, the position on that epoch's
  clock, and how it was produced. A `Ledger` is everything accepted so far together with
  everything published so far, and its fields are the law of publication: in each epoch the
  published positions are `start, start + 1, ...` with no gap and no repetition, an epoch
  that was left is published to its end, and a cell of an `orig` kind holds the accepted
  value of its position. `accept`, `publish` and `turn` are the three things that can
  happen, so a program that only ever does these obeys the law.
-/
import Mathlib.Data.List.Basic
import Mathlib.Data.List.Range

namespace FlyOnTheWall.Lib
open List

variable {κ α : Type*}

/-- One published value. -/
structure Cell (κ α : Type*) where
  epoch : ℕ
  pos : ℕ
  kind : κ
  value : α
  deriving DecidableEq

/-- The cells of a run of values that starts at a position. -/
def cellsFrom (epoch : ℕ) (kind : κ) : ℕ → List α → List (Cell κ α)
  | _, [] => []
  | pos, x :: xs => ⟨epoch, pos, kind, x⟩ :: cellsFrom epoch kind (pos + 1) xs

theorem cellsFrom_append (epoch : ℕ) (kind : κ) (pos : ℕ) (xs ys : List α) :
    cellsFrom epoch kind pos (xs ++ ys) =
      cellsFrom epoch kind pos xs ++ cellsFrom epoch kind (pos + xs.length) ys := by
  induction xs generalizing pos with
  | nil => rfl
  | cons x xs ih =>
    simp only [cons_append, cellsFrom, ih, length_cons]
    rw [Nat.add_assoc, Nat.add_comm 1]

theorem cellsFrom_pos (epoch : ℕ) (kind : κ) (pos : ℕ) (xs : List α) :
    (cellsFrom epoch kind pos xs).map Cell.pos = range' pos xs.length := by
  induction xs generalizing pos with
  | nil => rfl
  | cons x xs ih => simp [cellsFrom, ih, range'_succ]

variable {epoch : ℕ} {c : Cell κ α}

/-- What a cell of a run is. -/
theorem mem_cellsFrom {kind : κ} {pos : ℕ} {xs : List α} (h : c ∈ cellsFrom epoch kind pos xs) :
    c.epoch = epoch ∧ c.kind = kind ∧ pos ≤ c.pos ∧ xs[c.pos - pos]? = some c.value := by
  induction xs generalizing pos with
  | nil => cases h
  | cons x xs ih =>
    rcases mem_cons.mp h with rfl | h
    · simp
    · obtain ⟨he, hk, hp, hv⟩ := ih h
      refine ⟨he, hk, by omega, ?_⟩
      rw [show c.pos - pos = c.pos - (pos + 1) + 1 by omega, getElem?_cons_succ]
      exact hv

/-- The positions published in an epoch, in the order of publication. -/
def positions (epoch : ℕ) (cells : List (Cell κ α)) : List ℕ :=
  (cells.filter fun c => c.epoch == epoch).map Cell.pos

theorem positions_append (epoch : ℕ) (cs ds : List (Cell κ α)) :
    positions epoch (cs ++ ds) = positions epoch cs ++ positions epoch ds := by
  simp [positions]

theorem positions_cellsFrom_self (epoch : ℕ) (kind : κ) (pos : ℕ) (xs : List α) :
    positions epoch (cellsFrom epoch kind pos xs) = range' pos xs.length := by
  rw [← cellsFrom_pos epoch kind pos xs, positions, filter_eq_self.mpr]
  intro c hc
  simp [(mem_cellsFrom hc).1]

variable {cells : List (Cell κ α)}

theorem positions_eq_nil (h : ∀ c ∈ cells, c.epoch ≠ epoch) : positions epoch cells = [] := by
  rw [positions, filter_eq_nil_iff.mpr, map_nil]
  intro c hc
  simpa using h c hc

/-- What was accepted in one epoch, and where its clock starts. -/
structure Take (α : Type*) where
  epoch : ℕ
  start : ℕ
  accepted : List α

/-- Cells of an original kind hold what was accepted at their position. -/
def Take.Original (orig : κ → Prop) (t : Take α) (cells : List (Cell κ α)) : Prop :=
  ∀ c ∈ cells, c.epoch = t.epoch → orig c.kind → t.accepted[c.pos - t.start]? = some c.value

variable {orig : κ → Prop} {t : Take α}

theorem Take.Original.append {cs ds : List (Cell κ α)} (hc : t.Original orig cs)
    (hd : t.Original orig ds) : t.Original orig (cs ++ ds) := by
  intro c hmem
  rcases mem_append.mp hmem with h | h
  · exact hc c h
  · exact hd c h

theorem Take.original_of_ne (h : ∀ c ∈ cells, c.epoch ≠ t.epoch) : t.Original orig cells :=
  fun c hc he => absurd he (h c hc)

/-- Everything accepted and everything published. -/
structure Ledger (κ α : Type*) (orig : κ → Prop) where
  past : List (Take α)
  cur : Take α
  /-- How much of the current epoch is published. -/
  done : ℕ
  cells : List (Cell κ α)
  done_le : done ≤ cur.accepted.length
  epochs : ((past ++ [cur]).map Take.epoch).Pairwise (· < ·)
  tiled_past : ∀ t ∈ past, positions t.epoch cells = List.range' t.start t.accepted.length
  tiled_cur : positions cur.epoch cells = List.range' cur.start done
  original : ∀ t ∈ past ++ [cur], t.Original orig cells
  known : ∀ c ∈ cells, ∃ t ∈ past ++ [cur], c.epoch = t.epoch
  ordered : (cells.map Cell.epoch).Pairwise (· ≤ ·)

namespace Ledger

variable {orig : κ → Prop}

variable (L : Ledger κ α orig)

/-- Accepted in the current epoch and not published. -/
def pending : List α := L.cur.accepted.drop L.done

theorem pending_length : L.done + L.pending.length = L.cur.accepted.length := by
  have := L.done_le
  rw [pending, length_drop]
  omega

theorem past_lt (ht : t ∈ L.past) : t.epoch < L.cur.epoch := by
  have h := L.epochs
  rw [map_append, pairwise_append] at h
  exact h.2.2 _ (mem_map_of_mem ht) _ (by simp)

theorem cells_le (hc : c ∈ L.cells) : c.epoch ≤ L.cur.epoch := by
  obtain ⟨t, ht, he⟩ := L.known c hc
  rcases mem_append.mp ht with ht | ht
  · exact he ▸ (L.past_lt ht).le
  · rw [mem_singleton.mp ht] at he
    exact he.le

/-- The ledger of a clock that starts at `start`. -/
def empty (epoch start : ℕ) : Ledger κ α orig where
  past := []
  cur := ⟨epoch, start, []⟩
  done := 0
  cells := []
  done_le := Nat.le_refl _
  epochs := List.pairwise_singleton _ _
  tiled_past := nofun
  tiled_cur := rfl
  original := nofun
  known := nofun
  ordered := List.Pairwise.nil

/-- Accept values at the end of the current epoch. -/
def accept (xs : List α) : Ledger κ α orig where
  past := L.past
  cur := { L.cur with accepted := L.cur.accepted ++ xs }
  done := L.done
  cells := L.cells
  done_le := by
    rw [List.length_append]
    exact L.done_le.trans (Nat.le_add_right _ _)
  epochs := by simpa using L.epochs
  tiled_past := L.tiled_past
  tiled_cur := L.tiled_cur
  original := by
    intro t ht c hc he ho
    rcases List.mem_append.mp ht with ht | ht
    · exact L.original t (List.mem_append_left _ ht) c hc he ho
    · rw [List.mem_singleton.mp ht] at he ⊢
      have hv := L.original L.cur (by simp) c hc he ho
      have hlt := (List.getElem?_eq_some_iff.mp hv).1
      show (L.cur.accepted ++ xs)[c.pos - L.cur.start]? = some c.value
      rw [List.getElem?_append_left hlt]
      exact hv
  known := by
    intro c hc
    obtain ⟨t, ht, he⟩ := L.known c hc
    rcases List.mem_append.mp ht with ht | ht
    · exact ⟨t, List.mem_append_left _ ht, he⟩
    · refine ⟨_, List.mem_append_right _ (List.mem_singleton_self _), ?_⟩
      rw [he, List.mem_singleton.mp ht]
  ordered := L.ordered

theorem accept_pending (xs : List α) : (L.accept xs).pending = L.pending ++ xs :=
  drop_append_of_le_length L.done_le

variable (kind : κ) (values : List α)

/-- Publish values for the front of what is pending. -/
def publish (hlen : values.length ≤ L.pending.length)
    (horig : orig kind → values = L.pending.take values.length) : Ledger κ α orig where
  past := L.past
  cur := L.cur
  done := L.done + values.length
  cells := L.cells ++ cellsFrom L.cur.epoch kind (L.cur.start + L.done) values
  done_le := by
    have := L.pending_length
    omega
  epochs := L.epochs
  tiled_past := by
    intro t ht
    rw [positions_append, L.tiled_past t ht, positions_eq_nil, List.append_nil]
    intro c hc
    rw [(mem_cellsFrom hc).1]
    exact (L.past_lt ht).ne'
  tiled_cur := by
    rw [positions_append, L.tiled_cur, positions_cellsFrom_self, List.range'_append_1]
  original := by
    intro t ht
    refine (L.original t ht).append ?_
    rcases List.mem_append.mp ht with ht | ht
    · refine Take.original_of_ne fun c hc => ?_
      rw [(mem_cellsFrom hc).1]
      exact (L.past_lt ht).ne'
    · intro c hc _ ho
      obtain ⟨-, hk, hp, hv⟩ := mem_cellsFrom hc
      rw [List.mem_singleton.mp ht]
      have hlt := (List.getElem?_eq_some_iff.mp hv).1
      rw [horig (hk ▸ ho), List.getElem?_take_of_lt hlt, pending, List.getElem?_drop] at hv
      rw [← hv]
      congr 1
      omega
  known := by
    intro c hc
    rcases List.mem_append.mp hc with h | h
    · exact L.known c h
    · exact ⟨L.cur, by simp, (mem_cellsFrom h).1⟩
  ordered := by
    rw [List.map_append, List.pairwise_append]
    refine ⟨L.ordered, ?_, ?_⟩
    · refine List.pairwise_of_forall_mem_list fun a ha b hb => ?_
      obtain ⟨c, hc, rfl⟩ := List.mem_map.mp ha
      obtain ⟨d, hd, rfl⟩ := List.mem_map.mp hb
      rw [(mem_cellsFrom hc).1, (mem_cellsFrom hd).1]
    · intro a ha b hb
      obtain ⟨c, hc, rfl⟩ := List.mem_map.mp ha
      obtain ⟨d, hd, rfl⟩ := List.mem_map.mp hb
      rw [(mem_cellsFrom hd).1]
      exact L.cells_le hc

theorem publish_pending (hlen : values.length ≤ L.pending.length)
    (horig : orig kind → values = L.pending.take values.length) :
    (L.publish kind values hlen horig).pending = L.pending.drop values.length := by
  simp only [pending, publish, drop_drop]

/-- Leave a fully published epoch for a later one, on a clock of its own. -/
def turn (epoch start : ℕ) (hlater : L.cur.epoch < epoch)
    (hall : L.pending = []) : Ledger κ α orig where
  past := L.past ++ [L.cur]
  cur := ⟨epoch, start, []⟩
  done := 0
  cells := L.cells
  done_le := Nat.le_refl _
  epochs := by
    rw [List.map_append, List.pairwise_append]
    refine ⟨L.epochs, List.pairwise_singleton _ _, ?_⟩
    intro a ha b hb
    obtain ⟨t, ht, rfl⟩ := List.mem_map.mp ha
    rw [List.map_singleton, List.mem_singleton] at hb
    subst hb
    rcases List.mem_append.mp ht with ht | ht
    · exact (L.past_lt ht).trans hlater
    · rw [List.mem_singleton.mp ht]
      exact hlater
  tiled_past := by
    intro t ht
    rcases List.mem_append.mp ht with ht | ht
    · exact L.tiled_past t ht
    · have hlen := L.pending_length
      rw [hall, List.length_nil, Nat.add_zero] at hlen
      rw [List.mem_singleton.mp ht, L.tiled_cur, hlen]
  tiled_cur := positions_eq_nil fun c hc => ((L.cells_le hc).trans_lt hlater).ne
  original := by
    intro t ht
    rcases List.mem_append.mp ht with ht | ht
    · exact L.original t ht
    · rw [List.mem_singleton.mp ht]
      exact Take.original_of_ne fun c hc => ((L.cells_le hc).trans_lt hlater).ne
  known := by
    intro c hc
    obtain ⟨t, ht, he⟩ := L.known c hc
    exact ⟨t, List.mem_append_left _ ht, he⟩
  ordered := L.ordered

/-- `L'` is `L` after `xs` was accepted and some of what was pending was published. -/
structure Advances (xs : List α) (L' : Ledger κ α orig) : Prop where
  past_eq : L'.past = L.past
  cur_eq : L'.cur = { L.cur with accepted := L.cur.accepted ++ xs }
  cells_extend : L.cells <+: L'.cells

theorem Advances.refl : L.Advances [] L := ⟨rfl, by simp, prefix_rfl⟩

theorem Advances.trans {L M N : Ledger κ α orig} {xs ys : List α} (h : L.Advances xs M)
    (k : M.Advances ys N) : L.Advances (xs ++ ys) N := by
  refine ⟨k.past_eq.trans h.past_eq, ?_, h.cells_extend.trans k.cells_extend⟩
  rw [k.cur_eq, h.cur_eq]
  simp only [append_assoc]

theorem advances_accept (xs : List α) : L.Advances xs (L.accept xs) := ⟨rfl, rfl, prefix_rfl⟩

theorem advances_publish (kind : κ) (values : List α) (hlen : values.length ≤ L.pending.length)
    (horig : orig kind → values = L.pending.take values.length) :
    L.Advances [] (L.publish kind values hlen horig) := ⟨rfl, by simp [publish], prefix_append _ _⟩

end Ledger

end FlyOnTheWall.Lib
