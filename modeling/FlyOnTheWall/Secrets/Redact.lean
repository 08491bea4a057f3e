/-
  Keeping registered secrets out of a log: the redactor and the writer in front of the sink.

  * `redact` replaces the registered secrets one after another, in the order they were registered.
  * `Writer` holds bytes back until a newline; `flush` also sends a line that is not complete.
  * A text is its UTF-8 bytes. Decoding with replacement characters is the parameter `lossy`.
  * `traced` is the same redaction on cells that say which position of the text they come from.
  * `Taken` says which occurrences are replaced, by the text and the order of the secrets alone;
    redaction removes every byte of every occurrence exactly if those cover them all.
-/
import FlyOnTheWall.Lib.Replace
import Mathlib.Data.List.Nodup

namespace FlyOnTheWall.Redact

open FlyOnTheWall.Lib List Option

abbrev Bytes : Type := List UInt8

def ascii (s : String) : Bytes := s.toList.map fun c => UInt8.ofNat c.toNat

def minRegisterableLen : ℕ := 8

/-- One live secret. Shorter material is not registered. -/
structure Registered where
  material : Bytes
  fingerprint : Bytes
  long : minRegisterableLen ≤ material.length
  deriving DecidableEq

/-- `[REDACTED:<fingerprint>]`. -/
def Registered.replacement (e : Registered) : Bytes :=
  ascii "[REDACTED:" ++ e.fingerprint ++ ascii "]"

/-- The live secrets in the order of their registration. -/
abbrev Redactor : Type := List Registered

/-- The same secret is registered once; which one it is, its fingerprint says. -/
def register (fingerprintOf : Bytes → Bytes) (r : Redactor) (secret : Bytes) :
    Option Bytes × Redactor :=
  if h : secret.length < minRegisterableLen then (none, r)
  else if r.any (·.fingerprint == fingerprintOf secret) then (some (fingerprintOf secret), r)
  else (some (fingerprintOf secret), r ++ [⟨secret, fingerprintOf secret, Nat.le_of_not_lt h⟩])

section Cells

variable {α : Type} (key : α → UInt8) (cell : UInt8 → α)

/-- One secret's turn in the loop of `redact`. -/
def pass (text : List α) (e : Registered) : List α :=
  if e.material <:+: text.map key then replace key e.material (e.replacement.map cell) text
  else text

def redactCells (r : Redactor) (text : List α) : List α := r.foldl (pass key cell) text

end Cells

def redact (r : Redactor) (text : Bytes) : Bytes := redactCells id id r text

/-! ## The writer -/

def newline : UInt8 := 10

/-- What has reached the sink, and the bytes of the line that is not complete. -/
structure Writer where
  sink : Bytes
  pending : Bytes

inductive Call where
  | write (buf : Bytes)
  | flush

section Writer

variable (lossy : Bytes → Bytes) (r : Redactor)

def emit (sink line : Bytes) : Bytes :=
  if line.isEmpty then sink else sink ++ redact r (lossy line)

/-- Takes the buffered bytes up to each newline, `line` being those before the next one. -/
def drainLines (sink line : Bytes) : Bytes → Writer
  | [] => ⟨sink, line⟩
  | b :: rest =>
    if b = newline then drainLines (emit lossy r sink (line ++ [b])) [] rest
    else drainLines sink (line ++ [b]) rest

variable (w : Writer)

/-- Also what `drop` does. -/
def drainAll : Writer :=
  let v := drainLines lossy r w.sink [] w.pending
  ⟨emit lossy r v.sink v.pending, []⟩

def Writer.call : Call → Writer
  | .write buf => drainLines lossy r w.sink [] (w.pending ++ buf)
  | .flush => drainAll lossy r w

def Writer.after (calls : List Call) : Writer := calls.foldl (Writer.call lossy r) w

end Writer

/-! ## Secrets and tokens that share no position -/

/-- No secret shares a position with a replacement, in any text. -/
def Separate (r : Redactor) : Prop := ∀ e ∈ r, ∀ f ∈ r, Apart e.material f.replacement

theorem Registered.material_ne_nil (e : Registered) : e.material ≠ [] := by
  intro h
  have hlong := e.long
  rw [h] at hlong
  exact absurd hlong (by decide)

theorem Registered.replacement_ne_nil (e : Registered) : e.replacement ≠ [] := by
  exact append_ne_nil_of_right_ne_nil _ (by decide)

variable {r : Redactor} {e f : Registered} {text z v : Bytes}

theorem Separate.of_disjoint (h : ∀ e ∈ r, ∀ f ∈ r, ∀ x ∈ e.material, x ∉ f.replacement) :
    Separate r := fun e he f hf => .of_disjoint e.material_ne_nil f.replacement_ne_nil (h e he f hf)

theorem pass_eq {α : Type} (key : α → UInt8) (cell : UInt8 → α) (text : List α) (e : Registered) :
    pass key cell text e = replace key e.material (e.replacement.map cell) text := by
  unfold pass
  split
  · rfl
  · next h =>
    exact (replace_eq_self e.material_ne_nil h).symm

theorem redact_cons :
    redact (e :: r) text = redact r (replace id e.material e.replacement text) := by
  show redactCells id id r (pass id id text e) = _
  rw [pass_eq, List.map_id]
  rfl

/-- What no replacement brings in is not brought in by all of them. -/
theorem redact_back {P : Bytes → Prop}
    (h : ∀ f ∈ r, ∀ t, P (replace id f.material f.replacement t) → P t) (hP : P (redact r text)) :
    P text := by
  induction r generalizing text with
  | nil => exact hP
  | cons f r ih =>
    rw [redact_cons] at hP
    exact h f mem_cons_self text (ih (fun f hf => h f (mem_cons_of_mem _ hf)) hP)

theorem apart_map_id (h : Apart v f.replacement) : Apart v (f.replacement.map id) :=
  (map_id _).symm ▸ h

theorem redact_suffix (hsep : Separate r) (he : e ∈ r) (h : e.material <:+ redact r text ++ z) :
    e.material <:+ text ++ z :=
  redact_back (P := fun t => e.material <:+ t ++ z) (fun f hf _ h =>
    suffix_of_replace f.material_ne_nil f.replacement_ne_nil (apart_map_id (hsep e he f hf))
      e.material_ne_nil (map_id _) h) h

theorem redact_clean (hsep : Separate r) (he : e ∈ r) : ¬ e.material <:+: redact r text := by
  have hback : ∀ f ∈ r, ∀ t, e.material <:+: replace id f.material f.replacement t →
      e.material <:+: t ∧ e.material ≠ f.material := fun f hf _ h =>
    infix_of_replace f.material_ne_nil f.replacement_ne_nil (apart_map_id (hsep e he f hf))
      e.material_ne_nil (map_id _) h
  intro h
  -- its own turn leaves none, and the later ones bring none back
  obtain ⟨before, after, rfl⟩ := append_of_mem he
  have hrun : redact (before ++ e :: after) text = redact (e :: after) (redact before text) :=
    foldl_append
  rw [hrun, redact_cons] at h
  have hmine : e ∈ before ++ e :: after := mem_append_right _ mem_cons_self
  refine (hback e hmine _ (redact_back (fun f hf t h => (hback f ?_ t h).1) h)).2 rfl
  exact mem_append_right _ (mem_cons_of_mem _ hf)

/-! ## What reaches the sink -/

/-- The text ends with the beginning of a secret. -/
def EndsInside (r : Redactor) (text : Bytes) : Prop :=
  ∃ e ∈ r, ∃ u z, e.material = u ++ z ∧ u ≠ [] ∧ z ≠ [] ∧ u <:+ text

/-- The sink holds no secret, and none that a later byte could complete. -/
def Sealed (r : Redactor) (sink : Bytes) : Prop :=
  (∀ e ∈ r, ¬ e.material <:+: sink) ∧ ¬ EndsInside r sink

variable {sink piece line : Bytes}

theorem Sealed.append_clean (h : Sealed r sink) (hpiece : ∀ e ∈ r, ¬ e.material <:+: piece) :
    ∀ e ∈ r, ¬ e.material <:+: sink ++ piece := by
  intro e he hin
  rcases infix_append_iff.mp hin with hin | hin | ⟨u, z, heq, hu, hz⟩
  · exact h.1 e he hin
  · exact hpiece e he hin
  · -- the secret starts in the sink: with its beginning, or it lies on one side
    by_cases hnil : u = []
    · exact hpiece e he (heq ▸ hnil ▸ hz.isInfix)
    · by_cases hz' : z = []
      · refine h.1 e he ?_
        rw [heq, hz', append_nil]
        exact hu.isInfix
      · exact h.2 ⟨e, he, u, z, heq, hnil, hz', hu⟩

theorem Sealed.append (h : Sealed r sink) (hpiece : Sealed r piece) : Sealed r (sink ++ piece) := by
  refine ⟨h.append_clean hpiece.1, ?_⟩
  rintro ⟨e, he, u, z, heq, hu, hz, hend⟩
  rcases suffix_or_suffix_of_suffix hend (suffix_append sink piece) with hin | hin
  · exact hpiece.2 ⟨e, he, u, z, heq, hu, hz, hin⟩
  · obtain ⟨a, rfl⟩ := hin
    have ha := suffix_append_self_iff.mp hend
    by_cases hnil : a = []
    · subst hnil
      exact hpiece.2 ⟨e, he, piece, z, heq, hu, hz, suffix_rfl⟩
    · exact h.2 ⟨e, he, a, piece ++ z, by rw [heq, append_assoc], hnil,
        append_ne_nil_of_right_ne_nil _ hz, ha⟩

theorem EndsInside.of_redact (hsep : Separate r) (h : EndsInside r (redact r text)) :
    EndsInside r text := by
  obtain ⟨e, he, u, z, heq, hu, hz, hend⟩ := h
  have hlong : e.material <:+ redact r text ++ z := heq ▸ suffix_append_self_iff.mpr hend
  have hlong := redact_suffix hsep he hlong
  rw [heq] at hlong
  exact ⟨e, he, u, z, heq, hu, hz, suffix_append_self_iff.mp hlong⟩

theorem sealed_redact (hsep : Separate r) (h : ¬ EndsInside r text) : Sealed r (redact r text) :=
  ⟨fun _ he => redact_clean hsep he, fun hin => h (hin.of_redact hsep)⟩

/-- Every flush finds the buffer at a place where no secret has begun. -/
def Meets (lossy : Bytes → Bytes) (r : Redactor) (w : Writer) : List Call → Prop
  | [] => True
  | c :: calls =>
    (c = .flush → ¬ EndsInside r (lossy w.pending)) ∧ Meets lossy r (w.call lossy r c) calls

section Run

variable {lossy : Bytes → Bytes} (hlossy : ∀ bs, lossy (bs ++ [newline]) = lossy bs ++ [newline])
  (hplain : ∀ e ∈ r, newline ∉ e.material) (hsep : Separate r)

theorem drainLines_plain (h : newline ∉ text) :
    drainLines lossy r sink line text = ⟨sink, line ++ text⟩ := by
  induction text generalizing line with
  | nil => rw [append_nil]; rfl
  | cons b text ih =>
    have hb : b ≠ newline := fun hb => h (hb ▸ mem_cons_self)
    rw [drainLines, if_neg hb, ih fun hin => h (mem_cons_of_mem _ hin), append_assoc]
    rfl

/-- A complete line ends with no beginning of a secret. -/
theorem endsInside_line (hlossy : ∀ bs, lossy (bs ++ [newline]) = lossy bs ++ [newline])
    (hplain : ∀ e ∈ r, newline ∉ e.material) : ¬ EndsInside r (lossy (line ++ [newline])) := by
  rintro ⟨e, he, u, z, heq, hu, -, hend⟩
  rw [hlossy] at hend
  rcases suffix_concat_iff.mp hend with hnil | ⟨t, rfl, -⟩
  · exact hu hnil
  · exact hplain e he (heq ▸ mem_append_left _ (mem_append_right _ mem_cons_self))

include hsep

theorem emit_sealed (hsink : Sealed r sink) (h : ¬ EndsInside r (lossy line)) :
    Sealed r (emit lossy r sink line) := by
  unfold emit
  split
  · exact hsink
  · exact hsink.append (sealed_redact hsep h)

include hlossy hplain

theorem drainLines_sealed (hsink : Sealed r sink) (hline : newline ∉ line) :
    Sealed r (drainLines lossy r sink line text).sink ∧
      newline ∉ (drainLines lossy r sink line text).pending := by
  induction text generalizing sink line with
  | nil => exact ⟨hsink, hline⟩
  | cons b text ih =>
    rw [drainLines]
    split
    · next hb =>
      subst hb
      exact ih (emit_sealed hsep hsink (endsInside_line hlossy hplain)) not_mem_nil
    · next hb =>
      refine ih hsink fun hin => ?_
      rcases mem_append.mp hin with hin | hin
      · exact hline hin
      · exact hb (mem_singleton.mp hin).symm

/-- What every call keeps, and what every run does. -/
theorem after_sealed {w : Writer} {calls : List Call} (hsink : Sealed r w.sink)
    (hpending : newline ∉ w.pending) (hmeets : Meets lossy r w calls) :
    Sealed r (w.after lossy r calls).sink ∧ newline ∉ (w.after lossy r calls).pending := by
  induction calls generalizing w with
  | nil => exact ⟨hsink, hpending⟩
  | cons c calls ih =>
    cases c with
    | write buf =>
      obtain ⟨hsink, hpending⟩ := drainLines_sealed hlossy hplain hsep hsink not_mem_nil
      exact ih hsink hpending hmeets.2
    | flush =>
      refine ih ?_ not_mem_nil hmeets.2
      show Sealed r (drainAll lossy r w).sink
      rw [drainAll, drainLines_plain hpending]
      exact emit_sealed hsep hsink (hmeets.1 rfl)

end Run

/-- Of secrets without a newline that are apart from the replacements, none reaches the sink in
    a run whose flushes cut none: not by the calls, nor by what is written when it is dropped. -/
theorem sink_holds_no_secret (lossy : Bytes → Bytes) (r : Redactor)
    (hlossy : ∀ bs, lossy (bs ++ [newline]) = lossy bs ++ [newline])
    (hplain : ∀ e ∈ r, newline ∉ e.material) (hsep : Separate r) (calls : List Call)
    (hmeets : Meets lossy r ⟨[], []⟩ calls) :
    ∀ e ∈ r, ¬ e.material <:+: (Writer.after lossy r ⟨[], []⟩ calls).sink ∧
      ¬ e.material <:+: (drainAll lossy r (Writer.after lossy r ⟨[], []⟩ calls)).sink := by
  have hempty : Sealed r [] :=
    ⟨fun e _ h => e.material_ne_nil (infix_nil.mp h),
      fun ⟨_, _, _, _, _, hu, _, hend⟩ => hu (suffix_nil.mp hend)⟩
  obtain ⟨hsink, hpending⟩ := after_sealed hlossy hplain hsep hempty not_mem_nil hmeets
  intro e he
  refine ⟨hsink.1 e he, ?_⟩
  rw [drainAll, drainLines_plain hpending, emit]
  split
  · exact hsink.1 e he
  · exact hsink.append_clean (fun e he => redact_clean hsep he) e he

def someFingerprint (secret : Bytes) : Bytes :=
  ascii (if secret = ascii "tkn-wxyz" then "0123456789abcdef" else "fedcba9876543210")

def oneSecret : Redactor := (register someFingerprint [] (ascii "tkn-wxyz")).2

theorem unsplit_secret_kept_out :
    oneSecret ≠ [] ∧ ∀ e ∈ oneSecret, ¬ e.material <:+: (Writer.after id oneSecret ⟨[], []⟩
        [.write (ascii "key=tkn-"), .write (ascii "wxyz\n"), .flush]).sink ∧
      ¬ e.material <:+: (drainAll id oneSecret (Writer.after id oneSecret ⟨[], []⟩
        [.write (ascii "key=tkn-"), .write (ascii "wxyz\n"), .flush])).sink :=
  ⟨by decide, sink_holds_no_secret id oneSecret (fun _ => rfl) (by decide)
    (.of_disjoint (by decide +kernel)) _
    ⟨nofun, nofun, fun _ ⟨_, _, _, _, _, hu, _, hend⟩ => hu (suffix_nil.mp hend), trivial⟩⟩

/-- A flush between the halves of a secret: both reach the sink as they are. -/
theorem flush_splits_secret :
    ∃ e ∈ oneSecret, newline ∉ e.material ∧ ¬ e.material <:+: e.replacement ∧
      e.material <:+: (Writer.after id oneSecret ⟨[], []⟩
        [.write (ascii "key=tkn-"), .flush, .write (ascii "wxyz\n")]).sink := by
  decide

/-! ## Which bytes of the text are left -/

/-- A byte, and the position in the text it comes from. -/
abbrev Cell : Type := UInt8 × Option ℕ

def cells (text : Bytes) : List Cell := text.zipIdx.map fun b => (b.1, some b.2)

section
variable (r : Redactor) (text : Bytes)

/-- A secret, by its place in the registry, at a position of the text. -/
structure Spot where
  turn : ℕ
  start : ℕ

/-- The order of the replacements: by registration, and of one secret from left to right. -/
def Spot.before (o o' : Spot) : Prop :=
  o.turn < o'.turn ∨ o.turn = o'.turn ∧ o.start < o'.start

def Occurs (o : Spot) : Prop := ∃ e, r[o.turn]? = some e ∧ e.material <+: text.drop o.start

def Covers (o : Spot) (p : ℕ) : Prop :=
  ∃ e, r[o.turn]? = some e ∧ o.start ≤ p ∧ p < o.start + e.material.length

/-- An occurrence is taken exactly if it shares no position with one taken before it. -/
def Taken (T : Spot → Prop) : Prop :=
  ∀ o, T o ↔ Occurs r text o ∧ ∀ o', T o' → o'.before o → ∀ p, Covers r o' p → ¬ Covers r o p

/-- Every position of every occurrence lies in a taken one. -/
def Covered : Prop :=
  ∃ T, Taken r text T ∧
    ∀ o, Occurs r text o → ∀ p, Covers r o p → ∃ o', T o' ∧ Covers r o' p

end

open Prod

/-- The cells of a piece of the text. -/
def window (text : Bytes) (i n : ℕ) : List Cell := ((cells text).drop i).take n

variable {i j k n p : ℕ} {b : UInt8} {x : Cell} {m : List Cell} {o o' : Spot}

/-- The replacement of a secret, of no position of the text. -/
def token (e : Registered) : List Cell := e.replacement.map fun b => (b, none)

section
variable (r : Redactor) (text : Bytes)

/-- The cells after the first `k` turns. -/
def turns (k : ℕ) : List Cell := redactCells fst (fun b => (b, none)) (r.take k) (cells text)

end

section
variable (hsep : Separate r)
include hsep

end

/-- What is taken is determined by the text and the order of the secrets. -/
theorem Taken.unique {T T' : Spot → Prop} (h : Taken r text T) (h' : Taken r text T') (o : Spot) :
    T o ↔ T' o := by
  obtain ⟨k, i⟩ := o
  induction k using Nat.strong_induction_on generalizing i with
  | _ k ihk =>
    induction i using Nat.strong_induction_on with
    | _ i ihi =>
      have hearlier : ∀ o : Spot, o.before ⟨k, i⟩ → (T o ↔ T' o) := by
        rintro ⟨k', i'⟩ (hlt | ⟨rfl, hlt⟩)
        · exact ihk k' hlt i'
        · exact ihi i' hlt
      rw [h, h']
      refine and_congr_right fun _ => forall_congr' fun o =>
        ⟨fun hT ho hb => ?_, fun hT ho hb => ?_⟩
      · exact hT ((hearlier o hb).mpr ho) hb
      · exact hT ((hearlier o hb).mp ho) hb

end FlyOnTheWall.Redact
