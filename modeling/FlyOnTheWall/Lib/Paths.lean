/-
  Path texts and the places they name.

  A place is the list of the names from the root; symbolic links are left aside. A text is
  read from left to right: a slash ends a name, an empty name and `.` change nothing, and
  `..` goes up. A text that starts with a slash starts at the root.

  * `joinPath`: joining two texts; an absolute second one replaces the first.
  * `resolve base p`: the place the text names when it is read at `base`.
  * `parent base p`: the directory in which a file lands whose name begins with `p`. What is
    added to the last name is no part of it (`resolve_append`).
-/
import Mathlib.Data.List.Basic

namespace FlyOnTheWall.Lib
open List

abbrev Location : Type := List (List Char)

def isAbsolute (p : String) : Bool := p.toList.head? == some '/'

def joinPath (base p : String) : String := if isAbsolute p then p else base ++ "/" ++ p

/-- From a directory to what a name in it names. -/
def enter (dir : Location) (name : List Char) : Location :=
  if name = [] ∨ name = ['.'] then dir else if name = ['.', '.'] then dir.dropLast
  else dir ++ [name]

/-- The directory reached, and the name read so far. -/
def scan (s : Location × List Char) (c : Char) : Location × List Char :=
  if c = '/' then (enter s.1 s.2, []) else (s.1, s.2 ++ [c])

variable (base : Location) (p : String) {name : List Char}

def scanned : Location × List Char :=
  p.toList.foldl scan (if isAbsolute p then [] else base, [])

def resolve : Location := enter (scanned base p).1 (scanned base p).2

def parent : Location := (scanned base p).1

/-- The text can be a file's: it ends in a name, not in a slash or in dots. -/
abbrev NamesFile : Prop :=
  (scanned [] p).2 ∉ [[], ['.'], ['.', '.']] ∧ '\x00' ∉ p.toList

/-! ## Adding to the last name -/

/-- The special names are short. -/
theorem enter_long {dir : Location} (h : 2 < name.length) : enter dir name = dir ++ [name] := by
  unfold enter
  split_ifs with hdot hdots
  · rcases hdot with rfl | rfl
    · exact absurd h (by decide)
    · exact absurd h (by decide)
  · rw [hdots] at h
    exact absurd h (by decide)
  · rfl

theorem foldl_scan_name (h : '/' ∉ name) (s : Location × List Char) :
    name.foldl scan s = (s.1, s.2 ++ name) := by
  induction name generalizing s with
  | nil => simp
  | cons c cs ih =>
    obtain ⟨hc, hcs⟩ := not_or.mp (mem_cons.not.mp h)
    rw [foldl_cons, ih hcs, scan, if_neg (Ne.symm hc)]
    simp

variable {p q : String} {base : Location}

theorem isAbsolute_append (hq : q.toList.head? ≠ some '/') :
    isAbsolute (p ++ q) = isAbsolute p := by
  unfold isAbsolute
  rw [String.toList_append]
  cases p.toList with
  | nil =>
    simpa using hq
  | cons c cs => rfl

theorem scanned_append (hq : '/' ∉ q.toList) :
    scanned base (p ++ q) = ((scanned base p).1, (scanned base p).2 ++ q.toList) := by
  unfold scanned
  rw [isAbsolute_append fun h => hq (mem_of_mem_head? h), String.toList_append,
    foldl_append, foldl_scan_name hq]

theorem resolve_append (hlong : 2 < q.toList.length) (hq : '/' ∉ q.toList) :
    resolve base (p ++ q) = parent base p ++ [(scanned base p).2 ++ q.toList] := by
  unfold resolve parent
  rw [scanned_append hq]
  refine enter_long ?_
  rw [length_append]
  omega

end FlyOnTheWall.Lib
