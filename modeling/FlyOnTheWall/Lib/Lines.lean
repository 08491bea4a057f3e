/-
  Records kept as terminated lines in one stream of bytes.

  `takeLine` reads up to a terminator or a limit, whichever comes first. `frames` writes
  each body with its terminator. Reading back what was framed gives the bodies, and a
  stream cut anywhere is the frames of a prefix of the bodies followed by a remainder
  without a terminator (`exists_frames_of_cut`).
-/
import Mathlib.Data.List.Basic

namespace FlyOnTheWall.Lib
open List

variable {β : Type*}

variable (sep : β)

def frames (bodies : List (List β)) : List β :=
  bodies.flatMap (· ++ [sep])

@[simp] theorem frames_nil : frames sep [] = [] := rfl

@[simp] theorem frames_cons (body : List β) (bodies : List (List β)) :
    frames sep (body :: bodies) = body ++ sep :: frames sep bodies := by
  simp [frames]

@[simp] theorem frames_append (xs ys : List (List β)) :
    frames sep (xs ++ ys) = frames sep xs ++ frames sep ys := by
  simp [frames]

theorem length_le_length_frames (bodies : List (List β)) :
    bodies.length ≤ (frames sep bodies).length := by
  induction bodies with
  | nil => exact Nat.le_refl 0
  | cons body bodies ih =>
    simp only [frames_cons, length_cons, length_append]
    omega

variable {sep : β} {bodies : List (List β)} {torn cut : List β} {body : List β} {bound : ℕ}

theorem length_lt_length_frames (h : body ∈ bodies) : body.length < (frames sep bodies).length := by
  induction bodies with
  | nil => cases h
  | cons b bodies ih =>
    rw [frames_cons, length_append, length_cons]
    rcases mem_cons.mp h with rfl | h
    · omega
    · have hlt := ih h
      omega

/-! ## Reading one line -/

section Read

variable [DecidableEq β]

/-- A line with its terminator, if one is found within `limit` elements, and what follows. -/
def takeLine (sep : β) : ℕ → List β → List β × List β
  | _, [] => ([], [])
  | 0, b :: rest => ([], b :: rest)
  | limit + 1, b :: rest =>
    if b = sep then ([b], rest)
    else (b :: (takeLine sep limit rest).1, (takeLine sep limit rest).2)

variable {limit : ℕ} {bytes : List β}

theorem takeLine_frame (sep : β) (rest : List β) (hsep : sep ∉ body)
    (hlimit : body.length < limit) :
    takeLine sep limit (body ++ sep :: rest) = (body ++ [sep], rest) := by
  induction body generalizing limit with
  | nil =>
    obtain _ | n := limit
    · cases hlimit
    · simp [takeLine]
  | cons b body ih =>
    obtain _ | n := limit
    · cases hlimit
    have hb : b ≠ sep := fun h => hsep (h ▸ mem_cons_self)
    have hrest := ih (fun h => hsep (mem_cons_of_mem b h)) (Nat.lt_of_succ_lt_succ hlimit)
    simp only [cons_append, takeLine, if_neg hb, hrest]

theorem takeLine_torn (sep : β) (hsep : sep ∉ torn) (hlimit : torn.length ≤ limit) :
    takeLine sep limit torn = (torn, []) := by
  induction torn generalizing limit with
  | nil => simp [takeLine]
  | cons b torn ih =>
    obtain _ | n := limit
    · cases hlimit
    have hb : b ≠ sep := fun h => hsep (h ▸ mem_cons_self)
    have hrest := ih (fun h => hsep (mem_cons_of_mem b h)) (Nat.le_of_succ_le_succ hlimit)
    simp only [takeLine, if_neg hb, hrest]

theorem takeLine_append (sep : β) (limit : ℕ) (bytes : List β) :
    (takeLine sep limit bytes).1 ++ (takeLine sep limit bytes).2 = bytes := by
  induction bytes generalizing limit with
  | nil => cases limit <;> rfl
  | cons b bytes ih =>
    cases limit with
    | zero => rfl
    | succ limit =>
      rw [takeLine]
      split
      · rfl
      · rw [cons_append, ih limit]

theorem takeLine_eq_nil (h : (takeLine sep (limit + 1) bytes).1 = []) : bytes = [] := by
  cases bytes with
  | nil => rfl
  | cons b bytes =>
    rw [takeLine] at h
    split at h <;> cases h

/-- A line that ends in the terminator holds it nowhere else. -/
theorem takeLine_terminated (h : (takeLine sep limit bytes).1.getLast? = some sep) :
    ∃ body, (takeLine sep limit bytes).1 = body ++ [sep] ∧ sep ∉ body := by
  induction bytes generalizing limit with
  | nil => cases limit <;> cases h
  | cons b bytes ih =>
    cases limit with
    | zero => cases h
    | succ limit =>
      rw [takeLine] at h ⊢
      split at h
      · next hb =>
        rw [if_pos hb, hb]
        exact ⟨[], rfl, not_mem_nil⟩
      · next hb =>
        rw [if_neg hb]
        -- the terminator is not the first element, so the rest of the line ends in it
        have hrest : (takeLine sep limit bytes).1.getLast? = some sep := by
          cases hline : (takeLine sep limit bytes).1 with
          | nil =>
            rw [hline] at h
            exact absurd (Option.some.inj h) hb
          | cons c line =>
            rw [hline] at h
            exact h
        obtain ⟨body, hbody, hsep⟩ := ih hrest
        refine ⟨b :: body, by rw [hbody]; rfl, ?_⟩
        rw [mem_cons, not_or]
        exact ⟨fun h => hb h.symm, hsep⟩

end Read

/-- Frames that begin a stream of frames are the first of them. -/
theorem frames_isPrefix {xs ys : List (List β)} (hxs : ∀ body ∈ xs, sep ∉ body)
    (hys : ∀ body ∈ ys, sep ∉ body) (h : frames sep xs <+: frames sep ys) : xs <+: ys := by
  classical
  induction xs generalizing ys with
  | nil => exact nil_prefix
  | cons x xs ih =>
    obtain ⟨more, h⟩ := h
    cases ys with
    | nil => simp at h
    | cons y ys =>
      rw [frames_cons, frames_cons, append_assoc, cons_append] at h
      have hx := takeLine_frame sep (frames sep xs ++ more) (hxs x mem_cons_self)
        (by omega : x.length < x.length + y.length + 1)
      have hy := takeLine_frame sep (frames sep ys) (hys y mem_cons_self)
        (by omega : y.length < x.length + y.length + 1)
      rw [h, hy, Prod.mk.injEq] at hx
      obtain ⟨hxy, hrest⟩ := hx
      obtain rfl := append_cancel_right hxy
      have hxs' : ∀ body ∈ xs, sep ∉ body := fun body hb => hxs body (mem_cons_of_mem _ hb)
      have hys' : ∀ body ∈ ys, sep ∉ body := fun body hb => hys body (mem_cons_of_mem _ hb)
      exact (prefix_cons_inj y).mpr (ih hxs' hys' ⟨more, hrest.symm⟩)

/-! ## Cutting a stream of lines -/

section
variable (hbodies : ∀ body ∈ bodies, sep ∉ body ∧ body.length ≤ bound)
  (htorn : sep ∉ torn ∧ torn.length ≤ bound)
include hbodies htorn

/-- A cut through frames and a remainder falls inside one body or inside the remainder. -/
theorem exists_frames_of_isPrefix (hcut : cut <+: frames sep bodies ++ torn) :
    ∃ kept rest, kept <+: bodies ∧ cut = frames sep kept ++ rest ∧
      sep ∉ rest ∧ rest.length ≤ bound := by
  induction bodies generalizing cut with
  | nil =>
    refine ⟨[], cut, nil_prefix, rfl, ?_, Nat.le_trans hcut.length_le htorn.2⟩
    exact fun h => htorn.1 (hcut.subset h)
  | cons body bodies ih =>
    have hbody := hbodies body mem_cons_self
    rw [frames_cons, append_assoc, cons_append] at hcut
    rcases Nat.lt_or_ge body.length cut.length with hlong | hshort
    · -- the cut passes the body and its terminator
      obtain ⟨tail, rfl⟩ : body ++ [sep] <+: cut := by
        refine prefix_of_prefix_length_le ?_ hcut (by simpa using Nat.succ_le_of_lt hlong)
        exact ⟨frames sep bodies ++ torn, by simp⟩
      have htail : tail <+: frames sep bodies ++ torn := by
        simpa [append_assoc] using hcut
      obtain ⟨kept, rest, hkept, rfl, hrest⟩ :=
        ih (fun b hb => hbodies b (mem_cons_of_mem body hb)) htail
      exact ⟨body :: kept, rest, by simpa using hkept, by simp, hrest⟩
    · have hinside : cut <+: body :=
        prefix_of_prefix_length_le hcut (prefix_append _ _) hshort
      exact ⟨[], cut, nil_prefix, rfl, fun h => hbody.1 (hinside.subset h),
        Nat.le_trans hinside.length_le hbody.2⟩

/-- A cut that keeps the frames of `sure` keeps those bodies, some of the next ones and a
    remainder without a terminator. -/
theorem exists_frames_of_cut {sure : List (List β)}
    (hcut : cut <+: frames sep (sure ++ bodies) ++ torn)
    (hsure : (frames sep sure).length ≤ cut.length) :
    ∃ kept rest, kept <+: bodies ∧ cut = frames sep (sure ++ kept) ++ rest ∧
      sep ∉ rest ∧ rest.length ≤ bound := by
  rw [frames_append, append_assoc] at hcut
  obtain ⟨tail, rfl⟩ : frames sep sure <+: cut :=
    prefix_of_prefix_length_le (prefix_append _ _) hcut hsure
  have htail : tail <+: frames sep bodies ++ torn := by simpa using hcut
  obtain ⟨kept, rest, hkept, rfl, hrest⟩ := exists_frames_of_isPrefix hbodies htorn htail
  exact ⟨kept, rest, hkept, by simp, hrest⟩

end

end FlyOnTheWall.Lib
