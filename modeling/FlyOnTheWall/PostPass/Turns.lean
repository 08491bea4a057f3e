/-
  What the turns of a meeting keep of its words.

  * `channelTurns_formed`: every turn of a channel is formed, by induction over its words.
  * `buildTurns_keeps_words`: both channels, sorted: no word lost, doubled or moved.
-/
import FlyOnTheWall.PostPass.Merge
import Mathlib.Data.List.Induction
import Mathlib.Data.List.Nodup
import Mathlib.Data.List.TakeWhile

namespace FlyOnTheWall.PostPass

open List

variable (u : Unicode)

theorem sortByKey_perm {α : Type} (f : α → ℕ) (xs : List α) : (sortByKey f xs).Perm xs :=
  mergeSort_perm xs _

theorem sortByKey_sorted {α : Type} (f : α → ℕ) (xs : List α) :
    (sortByKey f xs).Pairwise (f · ≤ f ·) := by
  have h := @pairwise_mergeSort α (fun a b => decide (f a ≤ f b)) (by simp; omega)
    (by simp; omega) xs
  simpa [sortByKey] using h

/-- The words of `channel`, with their speakers, in the order of the turns. -/
def spoken (channel : Channel) (turns : List Turn) : List (TimedWord × Option String) :=
  (turns.filter (·.channel = channel)).flatMap (·.words)

/-- No start of the other channel lies in a gap of the turn: after the end of every word so far
    and before the next one. -/
def Turn.Unbroken (other : List ℕ) (turn : Turn) : Prop :=
  ∀ before word rest, turn.words = before ++ word :: rest → before ≠ [] →
    ∀ t ∈ other, t < word.1.startMs → ∃ x ∈ before, t ≤ x.1.endMs

/-- What holds of every turn of a channel. -/
structure Turn.Formed (channel : Channel) (other : List ℕ) (turn : Turn) : Prop where
  channel : turn.channel = channel
  speaker : ∀ w ∈ turn.words, w.2 = turn.speaker
  start : ∃ w rest, turn.words = w :: rest ∧ turn.startMs = w.1.startMs
  stop : ∃ w ∈ turn.words, turn.endMs = w.1.endMs
  unbroken : turn.Unbroken other

section Channel

variable {u} {channel : Channel} {other : List ℕ} {turns : List Turn} {turn : Turn}
  {word : TimedWord × Option String}

theorem Turn.takes_spec (hother : other.Pairwise (· ≤ ·))
    (h : turn.takes u other word.1 word.2 = true) :
    turn.speaker = word.2 ∧ ∀ t ∈ other, t < word.1.startMs → t ≤ turn.endMs := by
  simp only [Turn.takes, Bool.and_eq_true, beq_iff_eq, Bool.not_eq_true'] at h
  refine ⟨h.1.1.1, fun t ht hbefore => ?_⟩
  rw [← takeWhile_append_dropWhile (p := fun t => decide (t ≤ turn.endMs)) (l := other)]
    at ht hother
  rcases mem_append.mp ht with ht | ht
  · simpa using mem_takeWhile_imp ht
  · -- the first start after the turn is the earliest of them
    obtain ⟨first, later, hafter⟩ := exists_cons_of_ne_nil (ne_nil_of_mem ht)
    have hfirst := h.2
    rw [hafter] at ht hother hfirst
    have hle : first ≤ t := by
      rcases mem_cons.mp ht with rfl | ht
      · exact le_rfl
      · exact rel_of_pairwise_cons (pairwise_append.mp hother).2.1 ht
    simp only [head?_cons, decide_eq_false_iff_not] at hfirst
    omega

/-- The turn of the word alone. -/
def Turn.fresh (channel : Channel) (word : TimedWord × Option String) : Turn :=
  ⟨channel, word.2, word.1.startMs, word.1.endMs, [word]⟩

def Turn.extended (turn : Turn) (word : TimedWord × Option String) : Turn :=
  { turn with endMs := max turn.endMs word.1.endMs, words := turn.words ++ [word] }

theorem addWord_cases : addWord u channel other turns word = turns ++ [.fresh channel word] ∨
      ∃ init turn, turns = init ++ [turn] ∧ turn.takes u other word.1 word.2 = true ∧
        addWord u channel other turns word = init ++ [turn.extended word] := by
  rcases eq_nil_or_concat turns with rfl | ⟨init, turn, rfl⟩
  · exact .inl rfl
  · simp only [addWord, concat_eq_append, getLast?_concat, dropLast_concat]
    split
    · exact .inr ⟨init, turn, rfl, ‹_›, rfl⟩
    · exact .inl rfl

theorem Turn.fresh_formed : (Turn.fresh channel word).Formed channel other where
  channel := rfl
  speaker := by simp [Turn.fresh]
  start := ⟨word, [], rfl, rfl⟩
  stop := ⟨word, mem_singleton_self _, rfl⟩
  unbroken := by
    intro before w rest h hne
    rcases append_eq_singleton_iff.mp h.symm with ⟨hnil, -⟩ | ⟨-, hnil⟩
    · exact absurd hnil hne
    · exact absurd hnil (cons_ne_nil _ _)

theorem Turn.Formed.extended (h : turn.Formed channel other)
    (hother : other.Pairwise (· ≤ ·)) (htakes : turn.takes u other word.1 word.2 = true) :
    (turn.extended word).Formed channel other where
  channel := h.channel
  speaker := by
    intro w hw
    rcases mem_append.mp hw with hw | hw
    · exact h.speaker w hw
    · rw [mem_singleton.mp hw]
      exact (Turn.takes_spec hother htakes).1.symm
  start := by
    obtain ⟨w, rest, hwords, hstart⟩ := h.start
    exact ⟨w, rest ++ [word], by simp [Turn.extended, hwords], hstart⟩
  stop := by
    obtain ⟨w, hw, hstop⟩ := h.stop
    rcases le_total turn.endMs word.1.endMs with hle | hle
    · exact ⟨word, by simp [Turn.extended], max_eq_right hle⟩
    · exact ⟨w, by simp [Turn.extended, hw], (max_eq_left hle).trans hstop⟩
  unbroken := by
    intro before w rest hwords hne t ht hbefore
    rcases eq_nil_or_concat rest with rfl | ⟨rest, last, rfl⟩
    · -- the gap is the one the word just closed
      obtain ⟨rfl, hw⟩ := append_inj' hwords rfl
      obtain rfl : word = w := by simpa using hw
      obtain ⟨x, hx, hstop⟩ := h.stop
      exact ⟨x, hx, hstop ▸ (Turn.takes_spec hother htakes).2 t ht hbefore⟩
    · have hwords : turn.words ++ [word] = (before ++ w :: rest) ++ [last] := by
        simpa [Turn.extended] using hwords
      exact h.unbroken before w rest (append_inj' hwords rfl).1 hne t ht hbefore

/-- Every turn is formed, and together they are the words. -/
theorem channelTurns_formed (hother : other.Pairwise (· ≤ ·))
    (words : List (TimedWord × Option String)) :
    (∀ turn ∈ channelTurns u channel words other, turn.Formed channel other) ∧
      (channelTurns u channel words other).flatMap (·.words) = words := by
  induction words using reverseRecOn with
  | nil => simp [channelTurns]
  | append_singleton words word ih =>
    obtain ⟨hformed, hwords⟩ := ih
    have hstep : channelTurns u channel (words ++ [word]) other =
        addWord u channel other (channelTurns u channel words other) word := by
      simp [channelTurns]
    rw [hstep]
    generalize channelTurns u channel words other = turns at hformed hwords
    obtain heq | ⟨init, turn, rfl, htakes, heq⟩ := @addWord_cases u channel other turns word
    · rw [heq]
      refine ⟨fun t ht => ?_, by simp [hwords, Turn.fresh]⟩
      rcases mem_append.mp ht with ht | ht
      · exact hformed t ht
      · exact mem_singleton.mp ht ▸ Turn.fresh_formed
    · rw [heq]
      refine ⟨fun t ht => ?_, by simp [← hwords, Turn.extended]⟩
      rcases mem_append.mp ht with ht | ht
      · exact hformed t (mem_append_left _ ht)
      · exact mem_singleton.mp ht ▸ (hformed turn (by simp)).extended hother htakes

/-- A turn starts with its first word. -/
theorem starts_sublist (h : ∀ turn ∈ turns, turn.Formed channel other) :
    (turns.map (·.startMs)).Sublist ((turns.flatMap (·.words)).map (·.1.startMs)) := by
  induction turns with
  | nil => exact .slnil
  | cons turn turns ih =>
    obtain ⟨w, rest, hwords, hstart⟩ := (h turn mem_cons_self).start
    have ih := ih fun t ht => h t (mem_cons_of_mem _ ht)
    simp only [map_cons, flatMap_cons, map_append, hwords, hstart, cons_append]
    exact (ih.trans (sublist_append_right _ _)).cons_cons _

/-- Sorting by start does not reorder the turns of one channel. -/
theorem spoken_sorted {all sorted : List Turn} (hformed : ∀ turn ∈ turns, turn.Formed channel other)
    (hwords : (turns.flatMap (·.words)).Pairwise (·.1.startMs < ·.1.startMs))
    (hperm : sorted.Perm all) (hsorted : sorted.Pairwise (·.startMs ≤ ·.startMs))
    (hall : all.filter (·.channel = channel) = turns) :
    spoken channel sorted = turns.flatMap (·.words) := by
  have hstrict : (turns.map (·.startMs)).Pairwise (· < ·) :=
    .sublist (starts_sublist hformed) (pairwise_map.mpr hwords)
  have hperm : (sorted.filter (·.channel = channel)).Perm turns := hall ▸ hperm.filter _
  have heq : sorted.filter (·.channel = channel) = turns := by
    refine hperm.eq_of_pairwise (fun a b ha hb hle hge => ?_) (hsorted.filter _)
      ((pairwise_map.mp hstrict).imp le_of_lt)
    exact inj_on_of_nodup_map (hstrict.imp ne_of_lt) (hperm.mem_iff.mp ha) hb
      (le_antisymm hle hge)
  rw [spoken, heq]

end Channel

theorem labelWords_words (spans : Option (List SpeakerSpan)) (previous : Option String)
    (words : List TimedWord) : (labelWords spans previous words).map (·.1) = words := by
  induction words generalizing previous with
  | nil => rfl
  | cons w words ih => simp [labelWords, ih]

/-- The starts of the words of the other channel. -/
def otherStarts (mic system : List TimedWord) : Channel → List ℕ
  | .mic => system.map (·.startMs)
  | .system => mic.map (·.startMs)

theorem wordStarts_sorted (words : List TimedWord) : (wordStarts words).Pairwise (· ≤ ·) :=
  sortByKey_sorted id _

/-- The turns hold the words of each channel, each once and in order; a turn's words are of one
    speaker, the turns are sorted by start, and none reaches over a start of the other channel
    in one of its gaps. -/
theorem buildTurns_keeps_words (mic system : List TimedWord)
    (systemSpeakers : Option (List SpeakerSpan))
    (hmic : mic.Pairwise (·.startMs < ·.startMs))
    (hsystem : system.Pairwise (·.startMs < ·.startMs)) :
    let turns := buildTurns u mic system systemSpeakers
    (spoken .mic turns).map (·.1) = mic ∧ (spoken .system turns).map (·.1) = system ∧
      (∀ turn ∈ turns, ∀ w ∈ turn.words, w.2 = turn.speaker) ∧
      turns.Pairwise (·.startMs ≤ ·.startMs) ∧
      ∀ turn ∈ turns, turn.Unbroken (otherStarts mic system turn.channel) := by
  intro turns
  let micWords := mic.map fun w => (w, some "me")
  let systemWords := labelWords systemSpeakers none system
  obtain ⟨hmicTurns, hmicWords⟩ := @channelTurns_formed u .mic _
    (wordStarts_sorted system) micWords
  obtain ⟨hsystemTurns, hsystemWords⟩ := @channelTurns_formed u .system _
    (wordStarts_sorted mic) systemWords
  have hperm : turns.Perm (channelTurns u .mic micWords (wordStarts system) ++
      channelTurns u .system systemWords (wordStarts mic)) :=
    (sortByKey_perm _ _).trans ((sortByKey_perm _ _).trans (sortByKey_perm _ _))
  have hsorted : turns.Pairwise (·.startMs ≤ ·.startMs) := sortByKey_sorted _ _
  have hlabels : systemWords.map (·.1) = system := labelWords_words _ _ _
  have hspokenMic : spoken .mic turns = micWords := by
    rw [spoken_sorted hmicTurns (by rwa [hmicWords, pairwise_map]) hperm hsorted, hmicWords]
    rw [filter_append, filter_eq_self.mpr fun t ht => by simp [(hmicTurns t ht).channel],
      filter_eq_nil_iff.mpr fun t ht => by simp [(hsystemTurns t ht).channel], append_nil]
  have hspokenSystem : spoken .system turns = systemWords := by
    rw [← hlabels, pairwise_map] at hsystem
    rw [spoken_sorted hsystemTurns (by rwa [hsystemWords]) hperm hsorted, hsystemWords]
    rw [filter_append, filter_eq_nil_iff.mpr fun t ht => by simp [(hmicTurns t ht).channel],
      filter_eq_self.mpr fun t ht => by simp [(hsystemTurns t ht).channel], nil_append]
  have hformed : ∀ turn ∈ turns, ∃ words, turn.Formed turn.channel (wordStarts words) ∧
        otherStarts mic system turn.channel = words.map (·.startMs) := by
    intro turn hturn
    rcases mem_append.mp (hperm.mem_iff.mp hturn) with ht | ht
    · have h := hmicTurns turn ht
      exact ⟨system, h.channel.symm ▸ h, h.channel.symm ▸ rfl⟩
    · have h := hsystemTurns turn ht
      exact ⟨mic, h.channel.symm ▸ h, h.channel.symm ▸ rfl⟩
  refine ⟨by simp [hspokenMic, micWords, Function.comp_def], by rw [hspokenSystem, hlabels],
    fun turn hturn => ?_,
    hsorted, fun turn hturn => ?_⟩
  · obtain ⟨words, h, -⟩ := hformed turn hturn
    exact h.speaker
  · obtain ⟨words, h, hother⟩ := hformed turn hturn
    intro before word rest hwords hne t ht
    rw [hother] at ht
    exact h.unbroken before word rest hwords hne t ((sortByKey_perm id _).mem_iff.mpr ht)

/-- A speaker that the other channel interrupts: two turns around its one. -/
theorem interrupted_turns_keep_words : (spoken .mic (buildTurns ⟨Char.isWhitespace, String.toLower⟩
        [.new "so" 0 200, .new "well" 400 600] [.new "yes" 300 350] none)).map (·.1) =
      [.new "so" 0 200, .new "well" 400 600] :=
  (buildTurns_keeps_words ⟨Char.isWhitespace, String.toLower⟩ _ _ none (by decide) (by decide)).1

/-! ## From the windows to the turns -/

theorem joinWindow_sublist (prev : Option WindowWords) (window : WindowWords)
    (out words : List TimedWord) : joinWindow u prev window out words <+ out ++ words := by
  unfold joinWindow
  split
  · exact Sublist.refl _
  split
  · exact Sublist.refl _
  split
  · unfold joinByText
    dsimp only
    split
    · exact (Sublist.refl _).append (drop_sublist _ _)
    · refine Sublist.append ?_ filter_sublist
      simpa using (dropWhile_sublist _ (l := out.reverse)).reverse
  · unfold joinByTime
    dsimp only
    split
    · exact (Sublist.refl _).append ((drop_sublist _ _).trans filter_sublist)
    · exact (take_sublist _ _).append ((drop_sublist _ _).trans filter_sublist)

theorem heardWhole_sublist (window : WindowWords) (next : Option WindowWords) :
    heardWhole u window next <+ window.words := by
  unfold heardWhole
  dsimp only
  repeat' split
  · exact filter_sublist.trans filter_sublist
  · exact filter_sublist
  · exact filter_sublist

theorem mergeFrom_sublist (prev : Option WindowWords) (out : List TimedWord)
    (windows : List WindowWords) :
    mergeFrom u prev out windows <+ out ++ windows.flatMap (·.words) := by
  induction windows generalizing prev out with
  | nil => simp [mergeFrom]
  | cons window rest ih =>
    have hheard := (Sublist.refl out).append (heardWhole_sublist u window rest.head?)
    rw [flatMap_cons, ← append_assoc]
    exact (ih _ _).trans (((joinWindow_sublist u prev window out _).trans hheard).append_right _)

/-- However the windows overlap and whichever of their times are estimated, the merged words are
    words of the windows, in the order in which these have them, each taken at most once. -/
theorem mergeWindows_sublist (windows : List WindowWords) :
    mergeWindows u windows <+ windows.flatMap (·.words) :=
  mergeFrom_sublist u none [] windows

/-- No turn of a meeting has a word that no window heard, and none is in two of them. -/
theorem turns_of_windows (mic system : List WindowWords) (spans : Option (List SpeakerSpan)) :
    ((buildTurns u (mergeWindows u mic) (mergeWindows u system) spans).flatMap (·.words)).map (·.1)
      <+~ (mic ++ system).flatMap (·.words) := by
  have hturns : (buildTurns u (mergeWindows u mic) (mergeWindows u system) spans).Perm _ :=
    (sortByKey_perm _ _).trans ((sortByKey_perm _ _).trans (sortByKey_perm _ _))
  have hwords := (hturns.flatMap_right (·.words)).map (·.1)
  rw [flatMap_append, (channelTurns_formed (wordStarts_sorted _) _).2,
    (channelTurns_formed (wordStarts_sorted _) _).2, map_append, labelWords_words] at hwords
  have hmerged := (mergeFrom_sublist u none [] mic).append (mergeFrom_sublist u none [] system)
  refine ⟨_, hwords.symm, ?_⟩
  simpa [mergeWindows, Function.comp_def] using hmerged

end FlyOnTheWall.PostPass
