/-
  The index of a pushed bundle (`sync_bundle` of `github.rs`).

  A meeting's path is pinned by the first push that leaves a receipt; every push and every
  synchronisation goes by the settings it has read. A push that writes no transcript changes
  nothing and is left out. Of the index the targets of its links are kept.
-/
import FlyOnTheWall.Github.Bundle

namespace FlyOnTheWall.Okf
open List

/-- The `folder` is the configured path prefix. -/
structure Settings where
  enabled : Bool
  repo : String
  branch : String
  folder : List Char

structure Receipt where
  repo : String
  path : List Char

/-- What pushes have written, by repository, branch and path, and their receipts. -/
structure Account where
  written : List (String × String × List Char)
  receipts : List (MeetingId × Receipt)

structure Landing where
  settings : Settings
  meeting : Meeting
  receipted : Bool

variable (u : Unicode) (a : Account) (p : Landing)

def Account.path : List Char :=
  ((a.receipts.find? (·.1 = p.meeting.id)).map (·.2.path)).getD
    (p.settings.folder ++ transcriptFilename u p.meeting)

def Account.push : Account where
  written := (p.settings.repo, p.settings.branch, a.path u p) :: a.written
  receipts := if p.receipted then
    (p.meeting.id, ⟨p.settings.repo, a.path u p⟩) :: a.receipts.filter (·.1 ≠ p.meeting.id)
    else a.receipts

/-- Everything after the last slash. -/
def basename (path : List Char) : List Char := (path.reverse.takeWhile (· ≠ '/')).reverse

/-- The targets in the index, if one is written; `refused` stops the preflight or a write. -/
def Account.syncBundle (s : Settings) (refused : Option String) :
    Except String (Option (List (List Char))) :=
  if !s.enabled then .error "github_export_disabled"
  else
    let mine := a.receipts.filter (·.2.repo = s.repo)
    if mine.isEmpty then .ok none
    else match refused with
      | some e => .error e
      | none => .ok (some (mine.map fun r => basename r.2.path))

/-- The links of an index written under these settings lead to files pushed to its branch and
    its directory. -/
def Account.Resolves (s : Settings) : Prop :=
  ∀ refused links, a.syncBundle s refused = .ok (some links) →
    ∀ link ∈ links, (s.repo, s.branch, s.folder ++ link) ∈ a.written

def Account.after (pushes : List Landing) : Account := pushes.foldl (Account.push u) ⟨[], []⟩

/-- The pushes of a meeting that left a receipt. -/
def receiptedOf (id : MeetingId) (pushes : List Landing) : List Landing :=
  pushes.filter fun p => p.receipted ∧ p.meeting.id = id

/-- A meeting whose receipt is for the repository was last pushed to the branch, and never under
    another path prefix. -/
def Settings.Fits (s : Settings) (pushes : List Landing) : Prop :=
  ∀ id, ∀ last ∈ (receiptedOf id pushes).getLast?, last.settings.repo = s.repo →
    last.settings.branch = s.branch ∧ ∀ q ∈ receiptedOf id pushes, q.settings.folder = s.folder

/-- The receipt is of a file that the last of the meeting's pushes has written, in the folder of
    one of them. -/
def Account.Holds (r : Receipt) (pushes : List Landing) : Prop :=
  ∃ last ∈ pushes.getLast?, last.settings.repo = r.repo ∧
    (r.repo, last.settings.branch, r.path) ∈ a.written ∧
    ∃ q ∈ pushes, ∃ name, '/' ∉ name ∧ r.path = q.settings.folder ++ name

def Account.Filed (pushes : List Landing) : Prop :=
  ∀ r ∈ a.receipts, a.Holds r.2 (receiptedOf r.1 pushes)

variable {u a p} {folder : List Char} {pushes : List Landing}

theorem basename_append (hfolder : IsFolder folder) {name : List Char} (hname : '/' ∉ name) :
    basename (folder ++ name) = name := by
  have hall : ∀ c ∈ name.reverse, decide (c ≠ '/') = true := by
    intro c hc
    refine decide_eq_true fun heq => hname ?_
    exact heq ▸ mem_reverse.mp hc
  have hstop : folder.reverse.takeWhile (· ≠ '/') = [] := by
    rcases hfolder with rfl | hlast
    · rfl
    · rw [← head?_reverse] at hlast
      obtain ⟨rest, hrest⟩ := head?_eq_some_iff.mp hlast
      rw [hrest]
      rfl
  rw [basename, reverse_append, takeWhile_append_of_pos hall, hstop, append_nil, reverse_reverse]

theorem Account.Filed.path (h : a.Filed pushes) (hp : p.receipted = true) :
    ∃ q ∈ receiptedOf p.meeting.id (pushes ++ [p]),
      ∃ name, '/' ∉ name ∧ a.path u p = q.settings.folder ++ name := by
  rw [Account.path]
  cases hfound : a.receipts.find? (·.1 = p.meeting.id) with
  | none =>
    exact ⟨p, by simp [receiptedOf, hp], _, slash_notMem_transcriptFilename p.meeting, rfl⟩
  | some r =>
    obtain ⟨-, -, -, -, q, hq, hname⟩ := h r (mem_of_find?_eq_some hfound)
    have hid : r.1 = p.meeting.id := by simpa using find?_some hfound
    rw [hid] at hq
    refine ⟨q, ?_, hname⟩
    rw [receiptedOf, filter_append]
    exact mem_append_left _ hq

theorem Account.Filed.push (h : a.Filed pushes) : (a.push u p).Filed (pushes ++ [p]) := by
  have hold : ∀ r ∈ a.receipts, ¬(p.receipted = true ∧ p.meeting.id = r.1) →
      (a.push u p).Holds r.2 (receiptedOf r.1 (pushes ++ [p])) := by
    intro r hr hother
    have hsame : receiptedOf r.1 (pushes ++ [p]) = receiptedOf r.1 pushes := by
      simp [receiptedOf, hother]
    obtain ⟨last, hlast, hrepo, hwritten, hname⟩ := h r hr
    rw [hsame]
    exact ⟨last, hlast, hrepo, mem_cons_of_mem _ hwritten, hname⟩
  intro r hr
  rw [Account.push] at hr
  split at hr
  · next hp =>
    rcases mem_cons.mp hr with rfl | hr
    · exact ⟨p, by simp [receiptedOf, hp], rfl, mem_cons_self, h.path hp⟩
    · obtain ⟨hr, hne⟩ := mem_filter.mp hr
      exact hold r hr fun hboth => of_decide_eq_true hne hboth.2.symm
  · next hp => exact hold r hr fun hboth => hp hboth.1

theorem filed_foldl {more : List Landing} (h : a.Filed pushes) :
    (more.foldl (Account.push u) a).Filed (pushes ++ more) := by
  induction more generalizing a pushes with
  | nil => rwa [append_nil]
  | cons p more ih =>
    rw [append_cons]
    exact ih h.push

/-- After any pushes the links of an index resolve if every meeting in it was last pushed to its
    branch, and never under another path prefix. -/
theorem index_resolves (u : Unicode) (pushes : List Landing) (s : Settings)
    (hfolder : IsFolder s.folder) (hfits : s.Fits pushes) :
    (Account.after u pushes).Resolves s := by
  have hempty : Account.Filed ⟨[], []⟩ [] := nofun
  have hfiled : (Account.after u pushes).Filed pushes := filed_foldl hempty
  intro refused links h
  unfold Account.syncBundle at h
  dsimp only at h
  split at h
  · cases h
  split at h
  · cases h
  split at h
  · cases h
  cases h
  intro link hlink
  obtain ⟨r, hr, rfl⟩ := mem_map.mp hlink
  obtain ⟨hmem, hmine⟩ := mem_filter.mp hr
  obtain ⟨last, hlast, hrepo, hwritten, q, hq, name, hname, hpath⟩ := hfiled r hmem
  rw [of_decide_eq_true hmine] at hrepo hwritten
  obtain ⟨hbranch, hkept⟩ := hfits r.1 last hlast hrepo
  rw [hkept q hq] at hpath
  rw [hpath, basename_append hfolder hname, ← hpath, ← hbranch]
  exact hwritten

def notesOn (branch : String) : Settings := ⟨true, "team/notes", branch, "notes/".toList⟩

/-- A meeting pushed to one branch after the other. -/
def pushedTo (branches : List String) : Account :=
  .after asciiTables (branches.map fun branch => ⟨notesOn branch, standup ⟨0, Nat.two_pos⟩, true⟩)

theorem index_resolves_moved : (pushedTo ["main", "docs"]).syncBundle (notesOn "docs") none =
      .ok (some [transcriptFilename asciiTables (standup 0)]) ∧
    (pushedTo ["main", "docs"]).Resolves (notesOn "docs") :=
  ⟨by decide, index_resolves asciiTables _ _ (.inr rfl) (by
    intro id
    by_cases h : (standup 0).id = id <;> simp [receiptedOf, notesOn, h])⟩

/-- The branch was changed after the push. -/
theorem index_link_dangles : ¬ (pushedTo ["main"]).Resolves (notesOn "docs") := by
  intro h
  have hlink := h none [transcriptFilename asciiTables (standup 0)] (by decide) _
    mem_cons_self
  revert hlink
  decide

end FlyOnTheWall.Okf
