/-
  Codecs and hashes given by a table.

  A development that takes a serializer or a hash as a parameter is tried out on a few
  values whose real encodings are known. `tableCodec` and `tableHash` complete such a table
  to a function on everything, with the laws that were assumed of the parameter.
-/
import FlyOnTheWall.Lib.Storage
import Mathlib.Data.Countable.Basic
import Mathlib.Logic.Encodable.Basic
import Mathlib.Logic.Equiv.List

namespace FlyOnTheWall.Lib
open List

instance countableChar : Countable Char :=
  Function.Injective.countable (f := Char.toNat) fun _ _ h => Char.ext (UInt32.toNat_inj.mp h)

instance countableString : Countable String :=
  Function.Injective.countable (f := String.toList) fun _ _ h => String.toList_injective h

/-- An entry of the table, or the default. -/
theorem lookup_cases {α β : Type} [BEq α] [LawfulBEq α] (table : List (α × β)) (a : α)
    (default : β) :
    (∃ p ∈ table, p.1 = a ∧ ((table.find? (·.1 == a)).map (·.2)).getD default = p.2) ∨
      ((table.find? (·.1 == a)).map (·.2)).getD default = default := by
  cases hfind : table.find? (·.1 == a) with
  | some p =>
    exact .inl ⟨p, mem_of_find?_eq_some hfind, by simpa using find?_some hfind, rfl⟩
  | none => exact .inr rfl

section Codec
variable {α : Type} [DecidableEq α] [Encodable α]

/-- A parser of one line does not mind its newline. -/
def stripNewline (bytes : List UInt8) : List UInt8 :=
  if bytes.getLast? = some 10 then bytes.dropLast else bytes

variable (lines : List (α × List UInt8))

/-- The lines of the table, and for any other value a line of its own length. -/
def tableCodec : Codec α where
  toVec a := ((lines.find? (·.1 == a)).map (·.2)).getD
    (List.replicate (1000 + Encodable.encode a) 0)
  fromSlice bytes := ((lines.find? (·.2 == stripNewline bytes)).map (·.1)).or
    (Encodable.decode ((stripNewline bytes).length - 1000))

/-- Short lines without a newline, no two the same. -/
structure Tabled : Prop where
  found : ∀ p ∈ lines, lines.find? (·.2 == p.2) = some p
  short : ∀ p ∈ lines, p.2.length < 1000
  oneLine : ∀ p ∈ lines, 10 ∉ p.2

variable {lines : List (α × List UInt8)}

theorem tableCodec_toVec (lines : List (α × List UInt8)) (a : α) :
    (∃ p ∈ lines, p.1 = a ∧ (tableCodec lines).toVec a = p.2) ∨
      (tableCodec lines).toVec a = replicate (1000 + Encodable.encode a) 0 :=
  lookup_cases lines a _

theorem tableCodec_oneLine (h : Tabled lines) (a : α) : 10 ∉ (tableCodec lines).toVec a := by
  rcases tableCodec_toVec lines a with ⟨p, hp, -, htoVec⟩ | htoVec
  · rw [htoVec]
    exact h.oneLine p hp
  · rw [htoVec]
    exact fun hmem => absurd (mem_replicate.mp hmem).2 (by decide)

theorem tableCodec_fromSlice (h : Tabled lines) {a : α} {bytes : List UInt8}
    (hstrip : stripNewline bytes = (tableCodec lines).toVec a) :
    (tableCodec lines).fromSlice bytes = some a := by
  show ((lines.find? (·.2 == stripNewline bytes)).map (·.1)).or
    (Encodable.decode ((stripNewline bytes).length - 1000)) = some a
  rw [hstrip]
  rcases tableCodec_toVec lines a with ⟨p, hp, rfl, htoVec⟩ | htoVec
  · rw [htoVec, h.found p hp]
    rfl
  · have hother : lines.find? (·.2 == replicate (1000 + Encodable.encode a) 0) = none := by
      rw [find?_eq_none]
      intro p hp heq
      have hlength := congrArg length (eq_of_beq heq)
      rw [length_replicate] at hlength
      have hshort := h.short p hp
      omega
    rw [htoVec, hother, length_replicate, Nat.add_sub_cancel_left, Encodable.encodek]
    rfl

theorem tableCodec_readsBack (h : Tabled lines) : (tableCodec lines).ReadsBack := by
  intro a
  refine tableCodec_fromSlice h (if_neg fun hlast => ?_)
  exact tableCodec_oneLine h a (mem_of_getLast? hlast)

@[simp] theorem stripNewline_concat (line : List UInt8) : stripNewline (line ++ [10]) = line := by
  rw [stripNewline, getLast?_concat, if_pos rfl, dropLast_concat]

theorem tableCodec_line (h : Tabled lines) (a : α) :
    (tableCodec lines).fromSlice ((tableCodec lines).toVec a ++ [10]) = some a :=
  tableCodec_fromSlice h (stripNewline_concat _)

end Codec

/-! ## Hashes -/

/-- The digests of the table, and for any other input a zero byte and the input. -/
def tableHash (digests : List (List UInt8 × List UInt8)) (input : List UInt8) : List UInt8 :=
  ((digests.find? (·.1 == input)).map (·.2)).getD (0 :: input)

theorem tableHash_injective {digests : List (List UInt8 × List UInt8)}
    (hfound : ∀ p ∈ digests, digests.find? (·.2 == p.2) = some p)
    (hhead : ∀ p ∈ digests, p.2.head? ≠ some 0) : Function.Injective (tableHash digests) := by
  have hcases : ∀ input, (∃ p ∈ digests, p.1 = input ∧ tableHash digests input = p.2) ∨
      tableHash digests input = 0 :: input := fun input =>
    lookup_cases digests input _
  intro x y hxy
  rcases hcases x with ⟨p, hp, rfl, hx⟩ | hx <;> rcases hcases y with ⟨q, hq, rfl, hy⟩ | hy
  · have hsame : p.2 = q.2 := by rw [← hx, ← hy, hxy]
    have hpq := hfound p hp
    rw [hsame, hfound q hq] at hpq
    rw [Option.some.inj hpq]
  · rw [← hxy, hx] at hy
    exact absurd (by rw [hy]; rfl) (hhead p hp)
  · rw [hxy, hy] at hx
    exact absurd (by rw [hx]; rfl) (hhead q hq)
  · rw [hx, hy] at hxy
    exact (cons.inj hxy).2

end FlyOnTheWall.Lib
