/-
  The names of exported transcripts (fotwd, `okf.rs`, and the push path of `github.rs`).

  A transcript is called `YYYY-MM-DD-slug-id8.md`, where `id8` is the first eight letters and
  digits of the meeting's id. The store's ids are UUIDv7: 48 bits of milliseconds, then random
  bits. So `id8` is the creation time in units of 65536 ms, and holds nothing that is random.

  Of a file only the meeting whose transcript it holds is kept. The companions of a pushed
  transcript have names of their own and are left out, as are failed writes, which end the call.
-/
import Mathlib.Algebra.Group.Int.Defs
import Mathlib.Algebra.Group.Nat.Defs
import Mathlib.Data.List.Nodup
import Mathlib.Logic.Function.Basic

namespace FlyOnTheWall.Okf
open List

/-- `char::to_lowercase` and `char::is_alphanumeric`. -/
structure Unicode where
  lowercase : Char → List Char
  alphanumeric : Char → Bool
  slash : alphanumeric '/' = false

/-! ## Ids -/

/-- A UUIDv7, by its fields. -/
structure MeetingId where
  unixMs : Fin (2 ^ 48)
  randA : Fin (2 ^ 12)
  randB : Fin (2 ^ 62)
  deriving DecidableEq

def hex : ℕ → ℕ → List Char
  | 0, _ => []
  | width + 1, n => hex width (n / 16) ++ [Nat.digitChar (n % 16)]

/-- `new_id`: lowercase hexadecimal in groups, with the version and the variant set. -/
def MeetingId.text (id : MeetingId) : List Char :=
  hex 8 (id.unixMs / 2 ^ 16) ++ '-' :: hex 4 (id.unixMs % 2 ^ 16) ++ '-' ::
    hex 4 (0x7000 + id.randA) ++ '-' :: hex 4 (0x8000 + id.randB / 2 ^ 48) ++ '-' ::
    hex 12 (id.randB % 2 ^ 48)

structure Meeting where
  id : MeetingId
  title : List Char
  startedAtMs : ℤ
  deriving DecidableEq

/-! ## Names -/

def u32Or1 (n : ℤ) : ℕ := if 0 ≤ n ∧ n < 2 ^ 32 then n.toNat else 1

/-- Year, month and day, UTC. -/
def ymdUtc (epochMs : ℤ) : ℤ × ℕ × ℕ :=
  let z := epochMs / 86400000 + 719468
  let era := z / 146097
  let doe := z % 146097
  let yoe := (doe - doe / 1460 + doe / 36524 - doe / 146096) / 365
  let doy := doe - (365 * yoe + yoe / 4 - yoe / 100)
  let mp := (5 * doy + 2) / 153
  let m := if mp < 10 then mp + 3 else mp - 9
  let y := yoe + era * 400
  (if m ≤ 2 then y + 1 else y, u32Or1 m, u32Or1 (doy - (153 * mp + 2) / 5 + 1))

def padded (width n : ℕ) : List Char := (Nat.toDigits 10 n).leftpad width '0'

def dateText (epochMs : ℤ) : List Char :=
  let (y, m, d) := ymdUtc epochMs
  (if y < 0 then '-' :: padded 3 y.natAbs else padded 4 y.natAbs) ++
    '-' :: padded 2 m ++ '-' :: padded 2 d

variable (u : Unicode)

/-- One more character; the slug so far is held in reverse. -/
def slugPush (out : List Char) (c : Char) : List Char :=
  if u.alphanumeric c then c :: out
  else if out ≠ [] ∧ out.head? ≠ some '-' then '-' :: out else out

def slugFrom (out : List Char) : List Char → List Char
  | [] => out
  | c :: rest =>
    if 48 ≤ (slugPush u out c).length then slugPush u out c else slugFrom (slugPush u out c) rest

def slug (title : List Char) : List Char :=
  let out := (slugFrom u [] (title.flatMap u.lowercase)).dropWhile (· == '-')
  let trimmed := out.reverse.dropWhile (· == '-')
  if trimmed = [] then "meeting".toList else trimmed

def idFragment (meetingId : List Char) : List Char :=
  ((meetingId.filter Char.isAlphanum).take 8).map Char.toLower

/-- What stands in front of the id fragment: the date and the slug. -/
def stem (m : Meeting) : List Char := dateText m.startedAtMs ++ '-' :: slug u m.title

def transcriptFilename (m : Meeting) : List Char :=
  stem u m ++ '-' :: idFragment m.id.text ++ ".md".toList

/-! ## The bundle -/

/-- Whose transcript a name holds. -/
abbrev Files := List Char → Option MeetingId

variable (exports : Meeting → Bool)

def writeTranscript (files : Files) (m : Meeting) : Files :=
  if exports m then Function.update files (transcriptFilename u m) (some m.id) else files

/-- One page after the other: a page that is not full is the last. -/
def exportPages (exports : Meeting → Bool) (files : Files) (meetings : List Meeting) : Files :=
  let page := (meetings.take 200).foldl (writeTranscript u exports) files
  if _h : 200 ≤ meetings.length then exportPages exports page (meetings.drop 200) else page
termination_by meetings.length
decreasing_by simp only [List.length_drop]; omega

variable (meetings : List Meeting)

/-- `export_bundle` of a library in the order of its listing; `exports` tells the meetings that
    the store can export. -/
def exportBundle : Files :=
  Function.update (Function.update (exportPages u exports (fun _ => none) meetings)
    "index.md".toList none) "log.md".toList none

/-! ## Pushes -/

/-- A push, with the path prefix (`folder`) configured at its time and whether its receipt is
    stored. -/
structure Push where
  folder : List Char
  meeting : Meeting
  receipted : Bool

structure Remote where
  files : Files
  receipts : MeetingId → Option (List Char)

def Remote.empty : Remote := ⟨fun _ => none, fun _ => none⟩

variable (r : Remote) (p : Push)

/-- The path of a receipt is kept; without one a path is made. -/
def pushPath : List Char :=
  (r.receipts p.meeting.id).getD (p.folder ++ transcriptFilename u p.meeting)

def push : Remote where
  files := Function.update r.files (pushPath u r p) (some p.meeting.id)
  receipts := if p.receipted then
    Function.update r.receipts p.meeting.id (some (pushPath u r p)) else r.receipts

/-! ## What a name tells -/

@[simp] theorem length_hex (width n : ℕ) : (hex width n).length = width := by
  induction width generalizing n with
  | zero => rfl
  | succ width ih => simp [hex, ih]

theorem hex_injective {width a b : ℕ} (ha : a < 16 ^ width) (hb : b < 16 ^ width)
    (h : hex width a = hex width b) : a = b := by
  induction width generalizing a b with
  | zero => omega
  | succ width ih =>
    have hdigit : ∀ i < 16, ∀ j < 16, Nat.digitChar i = Nat.digitChar j → i = j := by decide
    obtain ⟨hfront, hlast⟩ := append_inj' h rfl
    have hfront := ih (by omega) (by omega) hfront
    have hlast := hdigit _ (by omega) _ (by omega) (singleton_inj.mp hlast)
    omega

theorem of_mem_hex {width n : ℕ} {c : Char} (h : c ∈ hex width n) :
    c.isAlphanum = true ∧ c.toLower = c ∧ c ≠ '/' := by
  have hdigit : ∀ i < 16, (Nat.digitChar i).isAlphanum = true ∧
      (Nat.digitChar i).toLower = Nat.digitChar i ∧ Nat.digitChar i ≠ '/' := by decide
  induction width generalizing n with
  | zero => simp [hex] at h
  | succ width ih =>
    rcases mem_append.mp h with h | h
    · exact ih h
    · rw [mem_singleton.mp h]
      exact hdigit _ (Nat.mod_lt _ (by decide))

theorem idFragment_text (id : MeetingId) : idFragment id.text = hex 8 (id.unixMs / 2 ^ 16) := by
  have hkept : (hex 8 (id.unixMs / 2 ^ 16)).filter Char.isAlphanum = hex 8 (id.unixMs / 2 ^ 16) :=
    filter_eq_self.mpr fun c hc => (of_mem_hex hc).1
  rw [idFragment, MeetingId.text]
  simp only [append_assoc, filter_append, hkept]
  rw [take_left' (length_hex 8 _)]
  exact (map_congr_left fun c hc => (of_mem_hex hc).2.1).trans (map_id _)

variable {u} {a b : Meeting}

/-- Two names are the same if the dates and slugs are and the ids are of the same 65536 ms. -/
theorem transcriptFilename_inj : transcriptFilename u a = transcriptFilename u b ↔
      stem u a = stem u b ∧ (a.id.unixMs : ℕ) / 2 ^ 16 = b.id.unixMs / 2 ^ 16 := by
  simp only [transcriptFilename, idFragment_text]
  constructor
  · intro h
    obtain ⟨hstem, hid⟩ := append_inj' (append_cancel_right h) (by simp)
    exact ⟨hstem, hex_injective (by omega) (by omega) (cons.inj hid).2⟩
  · rintro ⟨hstem, hid⟩
    rw [hstem, hid]

theorem slash_notMem_slugFrom (text : List Char) {out : List Char} (h : '/' ∉ out) :
    '/' ∉ slugFrom u out text := by
  induction text generalizing out with
  | nil => exact h
  | cons c text ih =>
    have hnext : '/' ∉ slugPush u out c := by
      rw [slugPush]
      split
      · next hc =>
        rintro hmem
        rcases mem_cons.mp hmem with rfl | hmem
        · exact absurd hc (by rw [u.slash]; decide)
        · exact h hmem
      · split <;> simp [h]
    rw [slugFrom]
    split
    · exact hnext
    · exact ih hnext

theorem slash_notMem_padded (width n : ℕ) : '/' ∉ padded width n := by
  intro h
  rcases mem_append.mp h with h | h
  · exact absurd (eq_of_mem_replicate h) (by decide)
  · exact absurd (Nat.isDigit_of_mem_toDigits (by decide) (by decide) h) (by decide)

theorem slash_notMem_transcriptFilename (m : Meeting) : '/' ∉ transcriptFilename u m := by
  have hslug : '/' ∉ slug u m.title := by
    have hout := @slash_notMem_slugFrom u (m.title.flatMap u.lowercase) [] not_mem_nil
    rw [slug]
    split
    · decide
    · intro h
      have h := (dropWhile_sublist _).subset h
      exact hout ((dropWhile_sublist _).subset (mem_reverse.mp h))
  have hid : '/' ∉ idFragment m.id.text := by
    rw [idFragment_text]
    exact fun h => (of_mem_hex h).2.2 rfl
  have hdate : '/' ∉ dateText m.startedAtMs := by
    rw [dateText]
    split
    split <;> simp [slash_notMem_padded]
  simp [transcriptFilename, stem, hslug, hid, hdate]

/-- A folder is empty or ends in a slash (`normalize_prefix`). -/
def IsFolder (path : List Char) : Prop := path = [] ∨ path.getLast? = some '/'

theorem IsFolder.eq_nil {front back rest : List Char} (h : IsFolder (front ++ back))
    (hslash : '/' ∉ back ++ rest) : back = [] := by
  by_contra hback
  have hlast : back.getLast? = some '/' := by
    rcases h with h | h
    · simp_all
    · rwa [getLast?_append_of_ne_nil _ hback] at h
  exact hslash (mem_append_left _ (mem_of_getLast? hlast))

theorem eq_of_path_eq {folder folder' name name' : List Char} (hfolder : IsFolder folder)
    (hfolder' : IsFolder folder') (hname : '/' ∉ name) (hname' : '/' ∉ name')
    (h : folder ++ name = folder' ++ name') : name = name' := by
  rcases append_eq_append_iff.mp h with ⟨back, rfl, rfl⟩ | ⟨back, rfl, rfl⟩
  · rw [hfolder'.eq_nil hname, nil_append]
  · rw [hfolder.eq_nil hname', nil_append]

/-! ## Exports -/

theorem exportPages_eq (files : Files) (meetings : List Meeting) :
    exportPages u exports files meetings = meetings.foldl (writeTranscript u exports) files := by
  fun_induction exportPages u exports files meetings with
  | case1 files meetings page hfull ih =>
    rw [ih, ← foldl_append, take_append_drop]
  | case2 files meetings page hlast =>
    exact congrArg _ (take_of_length_le (by omega))

/-- A name holds the transcript of a meeting that was exported to it. -/
theorem foldl_write_cases {exports : Meeting → Bool} (files : Files) (name : List Char) :
    (∃ m ∈ meetings, transcriptFilename u m = name ∧
      meetings.foldl (writeTranscript u exports) files name = some m.id) ∨
    ((∀ m ∈ meetings, exports m = true → transcriptFilename u m ≠ name) ∧
      meetings.foldl (writeTranscript u exports) files name = files name) := by
  induction meetings generalizing files with
  | nil => simp
  | cons m meetings ih =>
    rcases ih (writeTranscript u exports files m) with ⟨m', hm', h⟩ | ⟨hnone, h⟩
    · exact .inl ⟨m', mem_cons_of_mem m hm', h⟩
    · rw [foldl_cons, h, writeTranscript]
      by_cases hm : exports m = true ∧ transcriptFilename u m = name
      · exact .inl ⟨m, mem_cons_self, hm.2, by simp [hm]⟩
      · refine .inr ⟨?_, ?_⟩
        · intro m' hm' hexp
          rcases mem_cons.mp hm' with rfl | hm'
          · exact fun hname => hm ⟨hexp, hname⟩
          · exact hnone m' hm' hexp
        · split
          · next hexp =>
            exact Function.update_of_ne (fun hname => hm ⟨hexp, hname.symm⟩) _ _
          · rfl

/-- Versions of different meetings with the same date and slug have ids of different 65536 ms. -/
def Apart (u : Unicode) (versions : List Meeting) : Prop :=
  ∀ a ∈ versions, ∀ b ∈ versions, a.id ≠ b.id → stem u a = stem u b →
    (a.id.unixMs : ℕ) / 2 ^ 16 ≠ b.id.unixMs / 2 ^ 16

variable {versions : List Meeting} {r : Remote}

theorem Apart.id_eq (h : Apart u versions) (ha : a ∈ versions) (hb : b ∈ versions)
    (hname : transcriptFilename u a = transcriptFilename u b) : a.id = b.id := by
  obtain ⟨hstem, htime⟩ := transcriptFilename_inj.mp hname
  by_contra hid
  exact h a ha b hb hid hstem htime

theorem exportBundle_eq (m : Meeting) : exportBundle u exports meetings (transcriptFilename u m) =
      meetings.foldl (writeTranscript u exports) (fun _ => none) (transcriptFilename u m) := by
  have hne : ∀ name : List Char, name.length < 12 → transcriptFilename u m ≠ name := by
    rintro name hlength rfl
    simp only [transcriptFilename, idFragment_text, length_append, length_cons, length_hex,
      String.reduceToList] at hlength
    omega
  rw [exportBundle, Function.update_of_ne (hne _ (by decide)),
    Function.update_of_ne (hne _ (by decide)), exportPages_eq]

/-! ## Pushes, one after the other -/

/-- A path that a push of a version of this meeting can have made. -/
def PathOf (u : Unicode) (versions : List Meeting) (path : List Char) (id : MeetingId) : Prop :=
  ∃ folder, IsFolder folder ∧ ∃ m ∈ versions, m.id = id ∧ path = folder ++ transcriptFilename u m

theorem PathOf.id_eq (h : Apart u versions) {path : List Char} {id id' : MeetingId}
    (hpath : PathOf u versions path id) (hpath' : PathOf u versions path id') :
    id = id' := by
  obtain ⟨folder, hfolder, m, hm, rfl, rfl⟩ := hpath
  obtain ⟨folder', hfolder', m', hm', rfl, heq⟩ := hpath'
  exact h.id_eq hm hm' (eq_of_path_eq hfolder hfolder' (slash_notMem_transcriptFilename m)
    (slash_notMem_transcriptFilename m') heq)

structure Named (u : Unicode) (versions : List Meeting) (r : Remote) : Prop where
  files : ∀ path id, r.files path = some id → PathOf u versions path id
  receipts : ∀ id path, r.receipts id = some path → PathOf u versions path id

def Push.Of (versions : List Meeting) (p : Push) : Prop :=
  p.meeting ∈ versions ∧ IsFolder p.folder

theorem Named.pushPath (h : Named u versions r) {p : Push} (hp : p.Of versions) :
    PathOf u versions (pushPath u r p) p.meeting.id := by
  rw [Okf.pushPath]
  cases hreceipt : r.receipts p.meeting.id with
  | none => exact ⟨p.folder, hp.2, p.meeting, hp.1, rfl, rfl⟩
  | some path => exact h.receipts _ path hreceipt

theorem Named.push (h : Named u versions r) {p : Push} (hp : p.Of versions) :
    Named u versions (push u r p) := by
  refine ⟨fun path id hfile => ?_, fun id path hreceipt => ?_⟩
  · simp only [Okf.push, Function.update_apply] at hfile
    split at hfile
    · next hpath =>
      obtain rfl := Option.some.inj hfile
      exact hpath ▸ h.pushPath hp
    · exact h.files path id hfile
  · simp only [Okf.push] at hreceipt
    split at hreceipt
    · rw [Function.update_apply] at hreceipt
      split at hreceipt
      · next hid =>
        obtain rfl := Option.some.inj hreceipt
        exact hid ▸ h.pushPath hp
      · exact h.receipts id path hreceipt
    · exact h.receipts id path hreceipt

theorem named_foldl {pushes : List Push} (h : Named u versions r)
    (hpushes : ∀ p ∈ pushes, p.Of versions) : Named u versions (pushes.foldl (push u) r) := by
  induction pushes generalizing r with
  | nil => exact h
  | cons p pushes ih =>
    obtain ⟨hp, hrest⟩ := forall_mem_cons.mp hpushes
    exact ih (h.push hp) hrest

/-- Every bundle of every library that is made of these versions holds one transcript for each
    exported meeting, and no push overwrites the transcript of another meeting, exactly if
    versions of different meetings with the same date and slug have ids of different 65536 ms. -/
theorem transcripts_kept_iff (u : Unicode) (versions : List Meeting) :
    ((∀ meetings, meetings ⊆ versions → (meetings.map (·.id)).Nodup → ∀ exports : Meeting → Bool,
        ∀ m ∈ meetings, exports m = true →
          exportBundle u exports meetings (transcriptFilename u m) = some m.id) ∧
      ∀ pushes p, (∀ q ∈ pushes ++ [p], q.Of versions) → ∀ other,
        (pushes.foldl (push u) .empty).files (pushPath u (pushes.foldl (push u) .empty) p) =
          some other → other = p.meeting.id) ↔ Apart u versions := by
  constructor
  · rintro ⟨hbundle, -⟩ a ha b hb hid hstem htime
    have hname := transcriptFilename_inj.mpr ⟨hstem, htime⟩
    -- a library of just these two: the second transcript takes the place of the first
    have hone := hbundle [a, b] (by simp [ha, hb]) (by simpa using hid) fun _ => true
    have hfirst := hone a (by simp) rfl
    rw [hname, hone b (by simp) rfl] at hfirst
    exact hid (Option.some.inj hfirst).symm
  · intro h
    refine ⟨fun meetings hsub _ exports m hm hexp => ?_, fun pushes p hof other hfile => ?_⟩
    · rw [exportBundle_eq]
      rcases foldl_write_cases meetings (fun _ => none) (transcriptFilename u m) with
        ⟨m', hm', hname, hvalue⟩ | ⟨hnone, -⟩
      · rw [hvalue, h.id_eq (hsub hm') (hsub hm) hname]
      · exact absurd rfl (hnone m hm hexp)
    · have hempty : Named u versions .empty := ⟨nofun, nofun⟩
      have hnamed := named_foldl hempty fun q hq => hof q (mem_append_left _ hq)
      exact (hnamed.files _ other hfile).id_eq h (hnamed.pushPath (hof p (by simp)))

def asciiTables : Unicode := ⟨fun c => [c.toLower], Char.isAlphanum, by decide⟩

/-- Two stand-ups of one day, created one second apart. -/
def standup (second : Fin 2) : Meeting :=
  ⟨⟨⟨0x0197f1a20000 + 1000 * second, by omega⟩, 0, 0⟩, "Standup".toList, 1755734400000⟩

theorem standups_share_a_name : (standup 0).id ≠ (standup 1).id ∧
      transcriptFilename asciiTables (standup 0) = transcriptFilename asciiTables (standup 1) := by
  decide

end FlyOnTheWall.Okf
