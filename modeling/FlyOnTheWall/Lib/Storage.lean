/-
  Files as a program that appends and syncs sees them.

  * `DurableFile`: contents together with the length of the prefix known to be on stable
    storage. `writeAll` appends and may stop part way, `syncData` makes the whole file
    durable or fails without a promise, `truncate` cuts, and `crash` keeps the durable
    prefix and an arbitrary part of the rest.
  * `Codec`: a serializer and a parser that are given from outside.
  * `IoError`: the kinds of failure a call reports.
-/
import Mathlib.Algebra.GroupWithZero.Nat
import Mathlib.Data.List.Basic

namespace FlyOnTheWall.Lib
open List

inductive IoError
  | invalidData (message : String)
  | notFound
  | alreadyExists
  | wouldBlock
  | unexpectedEof
  | decode
  | other
  deriving DecidableEq, Repr

structure Codec (α : Type*) where
  toVec : α → List UInt8
  fromSlice : List UInt8 → Option α

/-- What was written is read back. -/
def Codec.ReadsBack {α : Type*} (codec : Codec α) : Prop :=
  ∀ a, codec.fromSlice (codec.toVec a) = some a

/-! ## Fallible calls -/

section Fallible
variable {ε α β : Type}

def refuseIf (refused : Bool) (error : ε) : Except ε Unit :=
  if refused then .error error else .ok ()

variable {refused : Bool} {error : ε}

theorem refuseIf_eq_ok {u : Unit} : refuseIf refused error = .ok u ↔ refused = false := by
  cases refused <;> simp [refuseIf]

theorem refuseIf_false (error : ε) : refuseIf false error = .ok () := rfl

/-- `ok_or_else`. -/
def okOr (x : Option α) (error : ε) : Except ε α :=
  match x with
  | some a => .ok a
  | none => .error error

variable {a : α}

theorem okOr_eq_ok {x : Option α} : okOr x error = .ok a ↔ x = some a := by
  cases x <;> simp [okOr]

theorem error_ne_ok {e : ε} : (Except.error e : Except ε α) ≠ .ok a := nofun

theorem ok_bind (a : α) (f : α → Except ε β) : ((Except.ok a : Except ε α) >>= f) = f a := rfl

variable {x : Except ε α} {f : α → Except ε β} {b : β}

theorem bind_eq_ok : (x >>= f) = .ok b ↔ ∃ a, x = .ok a ∧ f a = .ok b := by
  cases x with
  | error | ok => simp [bind, Except.bind]

/-- What follows a call has succeeded as well. -/
theorem bind_rest (h : (x >>= f) = .ok b) : ∃ a, f a = .ok b := by
  obtain ⟨a, -, h⟩ := bind_eq_ok.mp h
  exact ⟨a, h⟩

theorem bind_rest2 {δ : Type} {y : α → Except ε δ} {g : α → δ → Except ε β}
    (h : (x >>= fun a => y a >>= g a) = .ok b) : ∃ a d, g a d = .ok b :=
  (bind_rest h).imp fun _ h => bind_rest h

theorem refuseIf_bind_ok {f : Unit → Except ε β} :
    (refuseIf refused error >>= f) = .ok b ↔ refused = false ∧ f () = .ok b := by
  cases refused <;> simp [refuseIf, bind, Except.bind]

/-- A call that succeeds is out of the way. -/
theorem bind_congr_ok (h : x = .ok a) : (x >>= f) = f a := by
  rw [h, ok_bind]

theorem toOption_eq_some : x.toOption = some a ↔ x = .ok a := by
  cases x with
  | error | ok => simp [Except.toOption]

variable {r : Except ε α}

theorem mapError_eq_ok {ε' : Type} {f : ε → ε'} (h : r.mapError f = .ok a) : r = .ok a := by
  cases r with
  | error e => cases h
  | ok b =>
    cases h
    rfl

end Fallible

/-! ## Files -/

/-- The largest length of a file: an offset is a signed 64-bit number. -/
def maxFileBytes : ℕ := 2 ^ 63 - 1

structure DurableFile where
  bytes : List UInt8
  synced : ℕ
  synced_le : synced ≤ bytes.length
  fits : bytes.length ≤ maxFileBytes

namespace DurableFile

def empty : DurableFile where
  bytes := []
  synced := 0
  synced_le := Nat.zero_le _
  fits := Nat.zero_le _

variable (f : DurableFile)

variable (bs : List UInt8)

/-- Bytes past the largest file length are not written. -/
def write : DurableFile where
  bytes := f.bytes ++ bs.take (maxFileBytes - f.bytes.length)
  synced := f.synced
  synced_le := by
    rw [List.length_append]
    exact Nat.le_add_right_of_le f.synced_le
  fits := by
    have := f.fits
    simp only [List.length_append, List.length_take]
    omega

/-- `stop` is the number of bytes after which the operating system reports an error.
    The flag says whether all of `bs` was accepted. -/
def writeAll (stop : Option ℕ) : DurableFile × Bool :=
  match stop with
  | some k => (f.write (bs.take k), false)
  | none => (f.write bs, decide (f.bytes.length + bs.length ≤ maxFileBytes))

def sync : DurableFile :=
  { f with synced := f.bytes.length, synced_le := Nat.le_refl _ }

def syncData (ok : Bool) : DurableFile × Bool :=
  if ok then (f.sync, true) else (f, false)

def truncate (n : ℕ) : DurableFile where
  bytes := f.bytes.take n
  synced := min f.synced n
  synced_le := by
    have := f.synced_le
    rw [List.length_take]
    omega
  fits := Nat.le_trans (List.length_take_le' n f.bytes) f.fits

/-- What is left after a crash in which the first `keep` bytes reached the disk; a synced
    byte is never lost. -/
def crash (keep : ℕ) : DurableFile where
  bytes := f.bytes.take (max f.synced keep)
  synced := f.synced
  synced_le := by
    have := f.synced_le
    rw [List.length_take]
    omega
  fits := Nat.le_trans (List.length_take_le' _ f.bytes) f.fits

@[simp] theorem sync_bytes : f.sync.bytes = f.bytes := rfl
@[simp] theorem sync_synced : f.sync.synced = f.bytes.length := rfl
@[simp] theorem truncate_bytes (n : ℕ) : (f.truncate n).bytes = f.bytes.take n := rfl
@[simp] theorem truncate_synced (n : ℕ) : (f.truncate n).synced = min f.synced n := rfl
/-- A write that stops early leaves a prefix of what was asked for. -/
theorem write_bytes : ∃ part, part <+: bs ∧ (f.write bs).bytes = f.bytes ++ part :=
  ⟨_, List.take_prefix _ bs, rfl⟩

theorem write_bytes_eq : (f.write bs).bytes = (f.bytes ++ bs).take maxFileBytes := by
  rw [take_append, take_of_length_le f.fits]
  rfl

theorem writeAll_bytes (stop : Option ℕ) :
    ∃ part, part <+: bs ∧ (f.writeAll bs stop).1.bytes = f.bytes ++ part ∧
      (f.writeAll bs stop).1.synced = f.synced := by
  cases stop with
  | some k =>
    obtain ⟨part, hpart, hbytes⟩ := f.write_bytes (bs.take k)
    exact ⟨part, hpart.trans (List.take_prefix k bs), hbytes, rfl⟩
  | none =>
    obtain ⟨part, hpart, hbytes⟩ := f.write_bytes bs
    exact ⟨part, hpart, hbytes, rfl⟩

/-- A write that is reported as complete is complete. -/
theorem writeAll_complete {f : DurableFile} {bs : List UInt8} {stop : Option ℕ}
    (h : (f.writeAll bs stop).2 = true) :
    (f.writeAll bs stop).1.bytes = f.bytes ++ bs ∧
      f.bytes.length + bs.length ≤ maxFileBytes := by
  cases stop with
  | some k => cases h
  | none =>
    have hroom : f.bytes.length + bs.length ≤ maxFileBytes := of_decide_eq_true h
    refine ⟨?_, hroom⟩
    show f.bytes ++ bs.take (maxFileBytes - f.bytes.length) = f.bytes ++ bs
    rw [take_of_length_le (by omega)]

theorem crash_bytes (keep : ℕ) : (f.crash keep).bytes <+: f.bytes := List.take_prefix _ f.bytes

theorem synced_le_crash (keep : ℕ) : f.synced ≤ (f.crash keep).bytes.length :=
  (f.crash keep).synced_le

end DurableFile

end FlyOnTheWall.Lib
