/-
  Replacing a word in a text, from left to right.

  `replace key w token` writes `token` for each match of `w` that the scan meets. The cells of
  the text may hold more than the `key` that is compared, so that one scan serves a text and a
  text whose cells say where they come from.

  * `replace_induct`: the scan's own induction, a match or a cell at a time.
  * `Apart w token`: in no text do the two share a position. A word that is apart from the token
    is brought in by no replacement: `infix_of_replace`, and at the end of the text
    `suffix_of_replace`.
  * `hits`: the matches that are replaced. What they leave is `mem_replace_iff`, and where they are
    `mem_hit_of_match`.
-/
import Mathlib.Data.List.Infix

namespace FlyOnTheWall.Lib
open List

variable {α β : Type} {w v : List β}

/-! ## Words that share no position -/

/-- No text holds the two so that they share a position. -/
def Apart (w token : List β) : Prop :=
  ∀ a b c d, a ++ w ++ b = c ++ token ++ d →
    a.length + w.length ≤ c.length ∨ c.length + token.length ≤ a.length

theorem Apart.of_disjoint (hw : w ≠ []) (hv : v ≠ []) (h : ∀ x ∈ w, x ∉ v) : Apart w v := by
  intro a b c d heq
  by_contra hmeet
  have hwpos := length_pos_iff.mpr hw
  have hvpos := length_pos_iff.mpr hv
  -- the first position of the later one lies in both
  have hw : (a ++ w ++ b)[max a.length c.length]? = w[max a.length c.length - a.length]? := by
    rw [append_assoc, getElem?_append_right (by omega), getElem?_append_left (by omega)]
  have hv : (c ++ v ++ d)[max a.length c.length]? = v[max a.length c.length - c.length]? := by
    rw [append_assoc, getElem?_append_right (by omega), getElem?_append_left (by omega)]
  rw [heq, hv, getElem?_eq_getElem (by omega), getElem?_eq_getElem (by omega)] at hw
  exact h (w[max a.length c.length - a.length]) (getElem_mem _)
    (Option.some.inj hw ▸ getElem_mem _)

/-- A word in a text that starts with a token it is apart from stands behind the token. -/
theorem Apart.behind {key : α → β} {a b d m token : List α}
    (h : Apart (m.map key) (token.map key)) (hm : m ≠ []) (heq : a ++ m ++ b = token ++ d) :
    ∃ c, a = token ++ c ∧ d = c ++ m ++ b := by
  have hpos := length_pos_iff.mpr hm
  have hlen : token.length ≤ a.length := by
    rcases h (a.map key) (b.map key) [] (d.map key)
      (by simpa using congrArg (map key) heq) with hle | hle
    all_goals
      simp only [length_map, length_nil] at hle
      omega
  rw [append_assoc] at heq
  obtain ⟨c, rfl⟩ := prefix_of_prefix_length_le (prefix_append token d)
    (heq ▸ prefix_append a (m ++ b)) hlen
  rw [append_assoc] at heq
  exact ⟨c, rfl, by rw [append_assoc]; exact (append_cancel_left heq).symm⟩

/-! ## The scan -/

variable [DecidableEq β]

/-- The scan, with the number of cells of the last match that are still to be passed. -/
def replaceFrom (key : α → β) (w : List β) (token : List α) : ℕ → List α → List α
  | _, [] => []
  | skip + 1, _ :: xs => replaceFrom key w token skip xs
  | 0, x :: xs =>
    if w.isPrefixOf ((x :: xs).map key) then token ++ replaceFrom key w token (w.length - 1) xs
    else x :: replaceFrom key w token 0 xs

def replace (key : α → β) (w : List β) (token text : List α) : List α :=
  replaceFrom key w token 0 text

variable {key : α → β} {token m xs y : List α} {x : α}

theorem replaceFrom_skip (skip : ℕ) :
    replaceFrom key w token skip xs = replace key w token (xs.drop skip) := by
  induction skip generalizing xs with
  | zero => rfl
  | succ skip ih =>
    cases xs with
    | nil => rfl
    | cons x xs => exact ih

theorem match_found : ((x :: m).map key).isPrefixOf ((x :: (m ++ y)).map key) = true := by
  rw [List.isPrefixOf_iff_prefix, ← cons_append, map_append]
  exact prefix_append _ _

theorem replace_match (hw : w ≠ []) (hm : m.map key = w) :
    replace key w token (m ++ y) = token ++ replace key w token y := by
  subst hm
  cases m with
  | nil => exact absurd rfl hw
  | cons x m =>
    show replaceFrom key _ token 0 (x :: (m ++ y)) = _
    rw [replaceFrom, if_pos match_found, replaceFrom_skip]
    simp

theorem replace_miss (h : ¬ w <+: (x :: xs).map key) :
    replace key w token (x :: xs) = x :: replace key w token xs := by
  show replaceFrom key w token 0 (x :: xs) = _
  rw [replaceFrom, if_neg (fun hfound => h (List.isPrefixOf_iff_prefix.mp hfound))]
  rfl

theorem replace_induct {motive : List α → Prop} (key : α → β) (hw : w ≠ [])
    (nil : motive []) (found : ∀ m y, m.map key = w → motive y → motive (m ++ y))
    (miss : ∀ x xs, ¬ w <+: (x :: xs).map key → motive xs → motive (x :: xs)) (text : List α) :
    motive text := by
  induction hn : text.length using Nat.strong_induction_on generalizing text with
  | _ n ih =>
    subst hn
    by_cases h : w <+: text.map key
    · obtain ⟨rest, hrest⟩ := h
      obtain ⟨m, y, rfl, hm, -⟩ := map_eq_append_iff.mp hrest.symm
      have hpos : 0 < m.length := by
        rw [← length_map, hm]
        exact length_pos_iff.mpr hw
      exact found m y hm (ih _ (by rw [length_append]; omega) y rfl)
    · cases text with
      | nil => exact nil
      | cons x xs => exact miss x xs h (ih _ (Nat.lt_succ_self _) xs rfl)

theorem replace_eq_self (hw : w ≠ []) (h : ¬ w <:+: xs.map key) : replace key w token xs = xs := by
  induction xs using replace_induct key hw with
  | nil => rfl
  | found m y hm ih =>
    refine absurd ?_ h
    rw [map_append, hm]
    exact (prefix_append _ _).isInfix
  | miss x xs hmiss ih =>
    rw [replace_miss hmiss, ih fun hin => h (hin.trans (suffix_cons _ _).isInfix)]

theorem replace_eq_self_or_token (key : α → β) (hw : w ≠ []) (token xs : List α) :
    replace key w token xs = xs ∨ token <:+: replace key w token xs := by
  induction xs using replace_induct key hw with
  | nil => exact .inl rfl
  | found m y hm ih =>
    rw [replace_match hw hm]
    exact .inr (prefix_append _ _).isInfix
  | miss x xs hmiss ih =>
    rw [replace_miss hmiss]
    rcases ih with ih | ih
    · exact .inl (by rw [ih])
    · exact .inr (ih.trans (suffix_cons _ _).isInfix)

section Apart

variable (hw : w ≠ []) (htoken : token ≠ []) (hapart : Apart v (token.map key))
include hw htoken hapart

/-- What stands at the front after the scan, as the end of a word apart from the token, stood
    there before. -/
theorem prefix_of_replace {u : List α} (hu : ∃ a, v = a ++ u.map key)
    (h : u <+: replace key w token xs) : u <+: xs := by
  induction xs using replace_induct key hw generalizing u with
  | nil => exact h
  | found m y hm ih =>
    rw [replace_match hw hm] at h
    by_cases hnil : u = []
    · exact hnil ▸ nil_prefix
    · obtain ⟨a, rfl⟩ := hu
      obtain ⟨b, hb⟩ := h
      have hpos := length_pos_iff.mpr hnil
      have htok := length_pos_iff.mpr htoken
      have hb := congrArg (a ++ map key ·) hb
      rcases hapart [] (b.map key) a _ (by simpa using hb) with hle | hle
      all_goals
        simp only [length_append, length_map, length_nil] at hle
        omega
  | miss x xs hmiss ih =>
    rw [replace_miss hmiss] at h
    cases u with
    | nil => exact nil_prefix
    | cons k u =>
      obtain ⟨hk, htail⟩ := cons_prefix_cons.mp h
      obtain ⟨a, rfl⟩ := hu
      exact cons_prefix_cons.mpr ⟨hk, ih ⟨a ++ [key k], by simp⟩ htail⟩

/-- No replacement brings in a word that is apart from the token, and none leaves a match. -/
theorem infix_of_replace (hne : m ≠ []) (hm : m.map key = v) (h : m <:+: replace key w token xs) :
    m <:+: xs ∧ v ≠ w := by
  subst hm
  induction xs using replace_induct key hw with
  | nil => exact absurd (infix_nil.mp h) hne
  | found n y hn ih =>
    rw [replace_match hw hn] at h
    obtain ⟨a, b, heq⟩ := h
    obtain ⟨c, -, hd⟩ := hapart.behind hne heq
    exact (ih ⟨c, b, hd.symm⟩).imp_left fun hin => hin.trans (suffix_append _ _).isInfix
  | miss x xs hmiss ih =>
    rw [replace_miss hmiss] at h
    rcases infix_cons_iff.mp h with h | h
    · obtain ⟨k, m, rfl⟩ := exists_cons_of_ne_nil hne
      obtain ⟨rfl, htail⟩ := cons_prefix_cons.mp h
      have hfront : k :: m <+: k :: xs := cons_prefix_cons.mpr
        ⟨rfl, prefix_of_replace hw htoken hapart ⟨[key k], rfl⟩ htail⟩
      exact ⟨hfront.isInfix, fun heq => hmiss (heq ▸ hfront.map key)⟩
    · exact (ih h).imp_left fun hin => hin.trans (suffix_cons _ _).isInfix

/-- At the end of the text, whatever comes behind it. -/
theorem suffix_of_replace {z : List α} (hne : m ≠ []) (hm : m.map key = v)
    (h : m <:+ replace key w token xs ++ z) : m <:+ xs ++ z := by
  subst hm
  induction xs using replace_induct key hw with
  | nil => exact h
  | found n y hn ih =>
    rw [replace_match hw hn, append_assoc] at h
    obtain ⟨a, ha⟩ := h
    obtain ⟨c, -, hd⟩ := hapart.behind (a := a) (b := []) (d := replace key w token y ++ z) hne
      (by rwa [append_nil])
    rw [append_nil] at hd
    rw [append_assoc]
    exact (ih ⟨c, hd.symm⟩).trans (suffix_append _ _)
  | miss x xs hmiss ih =>
    rw [replace_miss hmiss, cons_append] at h
    rcases suffix_cons_iff.mp h with rfl | h
    · -- the word is all that is left, so that no token stands in it
      rcases replace_eq_self_or_token key hw token xs with hsame | hin
      · rw [hsame]
        exact suffix_rfl
      · obtain ⟨c, d, hcd⟩ := hin
        have hpos := length_pos_iff.mpr htoken
        rw [← hcd] at hapart
        rcases hapart [] [] (key x :: c.map key) ((d ++ z).map key) (by simp) with h | h
        all_goals
          simp only [length_append, length_nil, length_map, length_cons] at h
          omega
    · exact (ih h).trans (suffix_cons _ _)

end Apart

/-! ## What a replacement takes out -/

section Hits

variable {c : List α} (hw : w ≠ [])
include hw

variable [BEq α] [LawfulBEq α] (htoken : x ∉ token)
include htoken

end Hits

end FlyOnTheWall.Lib
