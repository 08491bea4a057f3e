/-
  What an export leaves, and what it leaves when it is cut.

  * `Dest.settled`: the files without the temporary ones. `afterMeetings` and `putAll` say on
    such maps what the two halves of an export do.
  * `exportMeetings_returns`, `exportShared_returns`, `exportLibrary_returns`: an export that
    is not cut ends there.
  * `exportLibrary_cut`: the states on the way.
-/
import FlyOnTheWall.Store.Export
import Mathlib.Data.List.Nodup

namespace FlyOnTheWall.Store

open Lib Prog List Option Function Preserves

/-! ## Names -/

def isTemporary (name : String) : Bool := ".tmp".toList.isSuffixOf name.toList

theorem isTemporary_temporary (stem extension : String) :
    isTemporary (temporary stem extension) = true := by
  unfold isTemporary temporary
  rw [isSuffixOf_iff_suffix]
  split
  · rw [String.toList_append]
    exact suffix_append _ _
  · rw [String.toList_append]
    exact suffix_append _ _

variable {extension stem : String}

/-- A name that ends in anything but a `p` is not temporary. -/
theorem isTemporary_append {c : Char} (hlast : extension.toList.getLast? = some c) (hc : c ≠ 'p') :
    isTemporary (stem ++ extension) = false := by
  refine Bool.eq_false_iff.mpr fun h => hc ?_
  obtain ⟨xs, hxs⟩ := isSuffixOf_iff_suffix.mp h
  have hname : (stem ++ extension).toList.getLast? = some c := by
    rw [String.toList_append, getLast?_append, hlast]
    rfl
  rw [← hxs, getLast?_append] at hname
  exact (some.inj hname).symm

variable (id : String)

def documentName : String := documentStem id ++ ".json"
def markdownName : String := markdownStem id ++ ".md"

theorem documentName_settled : isTemporary (documentName id) = false :=
  isTemporary_append rfl (by decide)

theorem markdownName_settled : isTemporary (markdownName id) = false :=
  isTemporary_append rfl (by decide)

variable {a b : String}

theorem joinPath_inj {base : String} (hbase : isAbsolute base = false) (hne : base ≠ "")
    (h : joinPath base a = joinPath base b) : a = b := by
  have hrel : ∀ p, isAbsolute (base ++ "/" ++ p) = false := by
    intro p
    rw [← hbase]
    unfold isAbsolute
    rw [String.append_assoc, String.toList_append]
    cases hchars : base.toList with
    | nil => exact absurd (String.toList_eq_nil_iff.mp hchars) hne
    | cons c cs => rfl
  unfold joinPath at h
  split_ifs at h with ha hb hb
  · exact h
  · rw [h, hrel] at ha
    cases ha
  · rw [← h, hrel] at hb
    cases hb
  · exact String.append_right_inj _ |>.mp h

theorem documentName_inj (h : documentName a = documentName b) : a = b :=
  joinPath_inj (by decide) (by decide) ((String.append_left_inj _).mp h)

theorem markdownName_inj (h : markdownName a = markdownName b) : a = b :=
  joinPath_inj (by decide) (by decide) ((String.append_left_inj _).mp h)

theorem documentName_ne_markdownName (a b : String) : documentName a ≠ markdownName b := by
  intro h
  have hlast := congrArg (fun s => s.toList.getLast?) h
  unfold documentName markdownName at hlast
  simp only [String.toList_append, getLast?_append] at hlast
  exact absurd (show some 'n' = some 'd' from hlast) (by decide)

/-! ## One file -/

namespace Dest

/-- The files without the temporary ones. -/
def settled (d : Dest) (name : String) : Option Content :=
  if isTemporary name then none else d.files name

variable {d : Dest} {name : String}

theorem settled_eq (h : isTemporary name = false) : d.settled name = d.files name := by
  unfold settled
  rw [h]
  rfl

variable {e : Dest}

theorem settled_congr (h : ∀ name, isTemporary name = false → d.files name = e.files name) :
    d.settled = e.settled := by
  funext name
  unfold settled
  cases hname : isTemporary name with
  | true => rfl
  | false => exact h name hname

variable {content : Content}

theorem settled_update (hname : isTemporary name = false) (h : ∀ other, isTemporary other = false →
      e.files other = update d.files name (some content) other) :
    e.settled = update d.settled name (some content) := by
  funext other
  by_cases hother : other = name
  · subst hother
    rw [settled_eq hname, h other hname, update_self, update_self]
  · rw [update_of_ne hother]
    unfold settled
    cases hkind : isTemporary other with
    | true => rfl
    | false =>
      rw [h other hkind, update_of_ne hother]

variable (effect : Effect)

/-- A file that is written. -/
def written (name : String) (content : Content) (d : Dest) : Dest :=
  { d with files := Function.update d.files name (some content), log := d.log ++ [effect] }

/-- A file that is on its way. -/
structure Filling (name : String) (d t : Dest) : Prop where
  place : t.place = d.place
  log : t.log = d.log ++ [effect]
  others : ∀ other, other ≠ name → t.files other = d.files other

theorem Filling.written (name : String) (content : Content) (d : Dest) :
    Filling effect name d (d.written effect name content) :=
  ⟨rfl, rfl, fun _ h => update_of_ne h _ _⟩

variable {effect : Effect}

theorem Filling.settled {t : Dest} (h : Filling effect name d t) (htemp : isTemporary name = true) :
    t.settled = d.settled := by
  refine settled_congr fun other hother => h.others other ?_
  rintro rfl
  rw [htemp] at hother
  cases hother

theorem settled_written (h : isTemporary name = false) :
    (d.written effect name content).settled = update d.settled name (some content) :=
  settled_update h fun _ _ => rfl

end Dest

open Dest

variable (effect : Effect) (name : String) (content : Content) (d : Dest)

theorem fillSteps_returns (n : ℕ) : (fillSteps name content n).Returns (d.written effect name []) ()
      (d.written effect name (content.take n)) := by
  induction n with
  | zero => exact ⟨rfl, by rw [take_zero]; rfl⟩
  | succ n ih =>
    refine ih.bind (.step ?_)
    unfold fill written
    simp only [update_idem]

theorem fillSteps_preserves (n : ℕ) :
    (fillSteps name content n).Preserves (Dest.Filling effect name d) := by
  induction n with
  | zero => exact pure
  | succ n ih =>
    refine ih.bind fun _ => step fun t ht => ⟨ht.place, ht.log, fun other hother => ?_⟩
    rw [← ht.others other hother]
    exact update_of_ne hother _ _

theorem writeFile_returns :
    (writeFile effect name content).Returns d () (d.written effect name content) := by
  refine .bind (t := d.written effect name []) (.step rfl) ?_
  have hfill := fillSteps_returns effect name content d content.length
  rwa [take_length] at hfill

variable {effect name content d} {t : Dest}

theorem writeFile_cut (h : t ∈ (writeFile effect name content d).trace) :
    Dest.Filling effect name d t := by
  have hopen : (Prog.step (openFile effect name) : Export Unit).Returns d ()
      (d.written effect name []) := .step rfl
  rcases hopen.mem_trace h with h | h
  · rw [mem_singleton.mp h]
    exact .written effect name [] d
  · exact (fillSteps_preserves effect name content d _).crash _ (.written effect name [] d) t h

/-! ## One document -/

/-- A part of an export went through: what is settled then, and what is in the log. -/
structure Leaves (d e : Dest) (files : String → Option Content) (effects : List Effect) : Prop where
  place : e.place = d.place
  settled : e.settled = files
  kept : d.log ⊆ e.log
  logged : effects ⊆ e.log

theorem Leaves.refl (d : Dest) : Leaves d d d.settled [] := ⟨rfl, rfl, Subset.refl _, nil_subset _⟩

theorem Leaves.trans {u e : Dest} {files files' : String → Option Content}
    {effects effects' : List Effect} (h1 : Leaves d u files effects)
    (h2 : Leaves u e files' effects') : Leaves d e files' (effects ++ effects') :=
  ⟨h2.place.trans h1.place, h2.settled, Subset.trans h1.kept h2.kept,
    append_subset.mpr ⟨Subset.trans h1.logged h2.kept, h2.logged⟩⟩

theorem writeFile_leaves (effect : Effect) (name : String) (content : Content) (d : Dest) :
    Leaves d (d.written effect name content) (d.written effect name content).settled [effect] :=
  ⟨rfl, rfl, subset_append_left _ _, subset_append_right _ _⟩

theorem writeAtomic_returns (stem extension : String) (content : Content)
    (hname : isTemporary (stem ++ extension) = false) (d : Dest) :
    ∃ e, (writeAtomic stem extension content).Returns d () e ∧
      Leaves d e (update d.settled (stem ++ extension) (some content))
        [.write (temporary stem extension), .write (stem ++ extension)] := by
  have htemp := isTemporary_temporary stem extension
  refine ⟨_, (writeFile_returns _ _ content d).bind (.step rfl), rfl, ?_, ?_, ?_⟩
  · refine settled_update hname fun other hother => ?_
    have hne : other ≠ temporary stem extension := by
      rintro rfl
      rw [htemp] at hother
      cases hother
    unfold rename written
    simp only [update_apply, if_neg hne, if_true]
  · exact Subset.trans (subset_append_left _ _) (subset_append_left _ _)
  · show [_] ++ [_] ⊆ d.log ++ [_] ++ [_]
    rw [append_assoc]
    exact subset_append_right _ _

/-- A cut leaves the old document or the new one. -/
theorem writeAtomic_cut (hname : isTemporary (stem ++ extension) = false)
    (h : t ∈ (writeAtomic stem extension content d).trace) :
    t.place = d.place ∧ (t.settled = d.settled ∨
      t.settled = update d.settled (stem ++ extension) (some content)) := by
  obtain ⟨e, ⟨-, hstate⟩, hput⟩ := writeAtomic_returns stem extension content hname d
  unfold writeAtomic at h hstate
  have hwrite := writeFile_returns (.write (temporary stem extension)) (temporary stem extension)
    content d
  rw [hwrite.run_bind] at hstate
  rcases hwrite.mem_trace h with h | h
  · have hfill := writeFile_cut h
    exact ⟨hfill.place, .inl (hfill.settled (isTemporary_temporary _ _))⟩
  · rw [mem_singleton.mp h]
    have hlast : rename (temporary stem extension) (stem ++ extension)
        (d.written (.write (temporary stem extension)) (temporary stem extension) content) = e :=
      hstate
    rw [hlast]
    exact ⟨hput.place, .inr hput.settled⟩

/-! ## The meetings -/

section Meetings
variable (render : Render) (db : Library)

def Library.document (id : String) : Option Content :=
  (db.exportMeeting id).map render.json.meeting.toVec

def Library.rendered (id : String) : Option Content := (db.exportMeeting id).map render.markdown

/-- The two files of a meeting. -/
inductive Owns (id : String) : String → Option Content → Prop
  | document : Owns id (documentName id) (db.document render id)
  | markdown : Owns id (markdownName id) (db.rendered render id)

variable (resume : Bool) (files : String → Option Content)

/-- A meeting that is not written again. -/
def skips (id : String) : Bool :=
  resume && isIntact render.json (files (documentName id)) id

def afterOne (id : String) : String → Option Content :=
  if skips render resume files id then files
  else Function.update (Function.update files (documentName id) (db.document render id))
    (markdownName id) (db.rendered render id)

def afterMeetings (ids : List String) : String → Option Content :=
  ids.foldl (afterOne render db resume) files

variable {render db} {resume : Bool} {files : String → Option Content} {id id' name : String}
  {content content' : Option Content}

section
variable (h : Owns render db id name content)
include h

theorem Owns.unique (h' : Owns render db id' name content') : id = id' ∧ content = content' := by
  generalize hname : name = name' at h'
  cases h with
  | document =>
    cases h' with
    | document =>
      obtain rfl := documentName_inj hname
      exact ⟨rfl, rfl⟩
    | markdown => exact absurd hname (documentName_ne_markdownName _ _)
  | markdown =>
    cases h' with
    | document => exact absurd hname.symm (documentName_ne_markdownName _ _)
    | markdown =>
      obtain rfl := markdownName_inj hname
      exact ⟨rfl, rfl⟩

theorem Owns.settled : isTemporary name = false := by
  cases h with
  | document => exact documentName_settled id
  | markdown => exact markdownName_settled id

theorem afterOne_owned : afterOne render db resume files id name =
      if skips render resume files id then files name else content := by
  unfold afterOne
  split
  · rfl
  · cases h with
    | document =>
      rw [update_of_ne (documentName_ne_markdownName _ _), update_self]
    | markdown => rw [update_self]

end

theorem afterOne_other (h : ∀ content, ¬Owns render db id name content) :
    afterOne render db resume files id name = files name := by
  unfold afterOne
  split
  · rfl
  · rw [update_of_ne, update_of_ne]
    · rintro rfl
      exact h _ .document
    · rintro rfl
      exact h _ .markdown

theorem skips_congr {files' : String → Option Content}
    (h : files (documentName id) = files' (documentName id)) :
    skips render resume files id = skips render resume files' id := by
  unfold skips
  rw [h]

/-- A meeting's files do not depend on what is done for another. -/
theorem afterOne_apart (h : Owns render db id name content) (hne : id' ≠ id) :
    afterOne render db resume files id' name = files name :=
  afterOne_other fun _ h' => hne (h'.unique h).1

theorem afterOne_skips (db : Library) (hne : id' ≠ id) :
    skips render resume (afterOne render db resume files id') id =
      skips render resume files id := by
  have hown : Owns render db id (documentName id) (db.document render id) := .document
  exact skips_congr (afterOne_apart hown hne)

variable {ids : List String}

theorem afterMeetings_other (h : ∀ id ∈ ids, ∀ content, ¬Owns render db id name content) :
    afterMeetings render db resume files ids name = files name := by
  induction ids generalizing files with
  | nil => rfl
  | cons id ids ih =>
    obtain ⟨hid, hids⟩ := forall_mem_cons.mp h
    exact (ih hids).trans (afterOne_other hid)

theorem afterMeetings_owned (hids : ids.Nodup) (hid : id ∈ ids)
    (h : Owns render db id name content) :
    afterMeetings render db resume files ids name =
      if skips render resume files id then files name else content := by
  induction ids generalizing files with
  | nil => cases hid
  | cons first ids ih =>
    obtain ⟨hfirst, hids⟩ := nodup_cons.mp hids
    by_cases hsame : first = id
    · subst hsame
      have hrest : afterMeetings render db resume (afterOne render db resume files first) ids name =
          afterOne render db resume files first name :=
        afterMeetings_other fun id' hid' content' h' => hfirst ((h'.unique h).1 ▸ hid')
      exact hrest.trans (afterOne_owned h)
    · have hmem := (mem_cons.mp hid).resolve_left (Ne.symm hsame)
      have hkept : afterOne render db resume files first name = files name :=
        afterOne_apart h hsame
      rw [← afterOne_skips db hsame, ← hkept]
      exact ih hids hmem

/-- A file of the old state, or a new one of a meeting that is written again. -/
def Reached (render : Render) (db : Library) (resume : Bool) (files : String → Option Content)
    (ids : List String) (name : String) (now : Option Content) : Prop :=
  now = files name ∨ ∃ id ∈ ids, skips render resume files id = false ∧ Owns render db id name now

theorem afterMeetings_reached (hids : ids.Nodup) :
    Reached render db resume files ids name (afterMeetings render db resume files ids name) := by
  by_cases h : ∃ id ∈ ids, ∃ content, Owns render db id name content
  · obtain ⟨id, hid, content, howns⟩ := h
    rw [afterMeetings_owned hids hid howns]
    cases hskips : skips render resume files id with
    | true => exact .inl rfl
    | false => exact .inr ⟨id, hid, hskips, howns⟩
  · refine .inl (afterMeetings_other fun id hid content howns => h ⟨id, hid, content, howns⟩)

variable {d : Dest}

theorem exportOne_skips (h : skips render resume d.settled id = true) :
    exportOne render resume db id d = ⟨.ok false, d, []⟩ := by
  unfold skips at h
  rw [settled_eq (documentName_settled id)] at h
  refine Eq.trans (read_bind (a := true) ?_) rfl
  exact congrArg Except.ok h

variable {doc : MeetingDoc}

theorem exportOne_writes (hdoc : db.exportMeeting id = some doc)
    (h : skips render resume d.settled id = false) :
    exportOne render resume db id d = (do
      writeAtomic (documentStem id) ".json" (render.json.meeting.toVec doc)
      writeAtomic (markdownStem id) ".md" (render.markdown doc)
      return true : Export Bool) d := by
  unfold skips at h
  rw [settled_eq (documentName_settled id)] at h
  refine Eq.trans (read_bind (a := false) ?_) (read_bind ?_)
  · exact congrArg Except.ok h
  · rw [hdoc]
    rfl

/-- A meeting's files. -/
def documentEffects (id : String) : List Effect := [
  .write (temporary (documentStem id) ".json"), .write (documentName id),
  .write (temporary (markdownStem id) ".md"), .write (markdownName id)]

theorem exportOne_returns (resume : Bool) (hdoc : db.exportMeeting id = some doc) (d : Dest) :
    ∃ written e, (exportOne render resume db id).Returns d written e ∧
      Leaves d e (afterOne render db resume d.settled id)
        (if skips render resume d.settled id then [] else documentEffects id) := by
  cases hskips : skips render resume d.settled id with
  | true =>
    refine ⟨false, d, ?_, ?_⟩
    · unfold Returns
      rw [exportOne_skips hskips]
      exact ⟨rfl, rfl⟩
    · rw [afterOne, hskips]
      exact .refl d
  | false =>
    obtain ⟨d1, hfirst, hput1⟩ := writeAtomic_returns (documentStem id) ".json"
      (render.json.meeting.toVec doc) (documentName_settled id) d
    obtain ⟨d2, hsecond, hput2⟩ := writeAtomic_returns (markdownStem id) ".md"
      (render.markdown doc) (markdownName_settled id) d1
    refine ⟨true, d2, ?_, ?_⟩
    · unfold Returns
      rw [exportOne_writes hdoc hskips]
      exact hfirst.bind (hsecond.bind .pure)
    · rw [afterOne, hskips, Library.document, Library.rendered, hdoc]
      rw [hput1.settled] at hput2
      exact hput1.trans hput2

theorem exportOne_cut (hdoc : db.exportMeeting id = some doc)
    (h : t ∈ (exportOne render resume db id d).trace) (name : String) :
    Reached render db resume d.settled [id] name (t.settled name) := by
  cases hskips : skips render resume d.settled id with
  | true =>
    rw [exportOne_skips hskips] at h
    exact absurd h not_mem_nil
  | false =>
    -- Whatever was replaced was replaced by the meeting's own content.
    have hhalf : Reached render db resume d.settled [id] name
        (update d.settled (documentName id) (db.document render id) name) := by
      by_cases hname : name = documentName id
      · subst hname
        rw [update_self]
        exact .inr ⟨id, mem_singleton_self id, hskips, .document⟩
      · exact .inl (update_of_ne hname _ _)
    have hdone : Reached render db resume d.settled [id] name
        (afterOne render db resume d.settled id name) :=
      afterMeetings_reached (nodup_singleton id)
    rw [afterOne, hskips, Library.rendered, hdoc] at hdone
    rw [Library.document, hdoc] at hhalf hdone
    obtain ⟨d1, hfirst, hput1⟩ := writeAtomic_returns (documentStem id) ".json"
      (render.json.meeting.toVec doc) (documentName_settled id) d
    rw [exportOne_writes hdoc hskips] at h
    rcases hfirst.mem_trace h with h | h
    · rcases (writeAtomic_cut (documentName_settled id) h).2 with hold | hnew
      · exact .inl (congrFun hold name)
      · rw [hnew]
        exact hhalf
    · obtain ⟨d2, hsecond, -⟩ := writeAtomic_returns (markdownStem id) ".md"
        (render.markdown doc) (markdownName_settled id) d1
      rcases hsecond.mem_trace h with h | h
      · rcases (writeAtomic_cut (markdownName_settled id) h).2 with hold | hnew
        · rw [hold, hput1.settled]
          exact hhalf
        · rw [hnew, hput1.settled]
          exact hdone
      · exact absurd h not_mem_nil

theorem exportMeetings_returns (render : Render) (resume : Bool)
    (hids : ∀ id ∈ ids, (db.exportMeeting id).isSome) (d : Dest) :
    ∃ written e, (exportMeetings render resume db ids).Returns d written e ∧
      Leaves d e (afterMeetings render db resume d.settled ids)
        (if resume then [] else ids.flatMap documentEffects) := by
  induction ids generalizing d with
  | nil =>
    have hleft : Leaves d d (afterMeetings render db resume d.settled []) [] := .refl d
    exact ⟨0, d, .pure, by simpa using hleft⟩
  | cons id ids ih =>
    obtain ⟨hid, hrest⟩ := forall_mem_cons.mp hids
    obtain ⟨doc, hdoc⟩ := isSome_iff_exists.mp hid
    obtain ⟨written, d1, hone, hleft1⟩ := exportOne_returns resume hdoc d
    obtain ⟨more, d2, hmore, hleft2⟩ := ih hrest d1
    rw [hleft1.settled] at hleft2
    refine ⟨_, d2, hone.bind (hmore.bind .pure), { hleft1.trans hleft2 with logged := ?_ }⟩
    cases resume with
    | true => exact nil_subset _
    | false => exact (hleft1.trans hleft2).logged

/-- What was reached for one meeting is reached for all. -/
theorem Reached.cons (hid : id ∉ ids) {now : Option Content}
    (h : Reached render db resume (afterOne render db resume files id) ids name now) :
    Reached render db resume files (id :: ids) name now := by
  rcases h with h | ⟨id', hid', hskips, howns⟩
  · have hone : Reached render db resume files [id] name
        (afterOne render db resume files id name) :=
      afterMeetings_reached (nodup_singleton id)
    rcases hone with hone | ⟨id', hid', hskips, howns⟩
    · exact .inl (h.trans hone)
    · rw [mem_singleton.mp hid'] at hskips howns
      exact .inr ⟨id, mem_cons_self, hskips, h ▸ howns⟩
  · have hne : id ≠ id' := by
      rintro rfl
      exact hid hid'
    rw [afterOne_skips db hne] at hskips
    exact .inr ⟨id', mem_cons_of_mem _ hid', hskips, howns⟩

theorem exportMeetings_cut (hnodup : ids.Nodup) (hids : ∀ id ∈ ids, (db.exportMeeting id).isSome)
    (h : t ∈ (exportMeetings render resume db ids d).trace) (name : String) :
    Reached render db resume d.settled ids name (t.settled name) := by
  induction ids generalizing d with
  | nil => exact absurd h not_mem_nil
  | cons id ids ih =>
    obtain ⟨hid, hrest⟩ := forall_mem_cons.mp hids
    obtain ⟨hfresh, hnodup⟩ := nodup_cons.mp hnodup
    obtain ⟨doc, hdoc⟩ := isSome_iff_exists.mp hid
    obtain ⟨written, d1, hone, hleft⟩ := exportOne_returns resume hdoc d
    obtain ⟨more, d2, hmore, -⟩ := exportMeetings_returns render resume hrest d1
    rcases hone.mem_trace h with h | h
    · rcases exportOne_cut hdoc h name with hold | ⟨id', hid', hnew⟩
      · exact .inl hold
      · exact .inr ⟨id', mem_singleton.mp hid' ▸ mem_cons_self, hnew⟩
    · rcases hmore.mem_trace h with h | h
      · have hreached := ih hnodup hrest h
        rw [hleft.settled] at hreached
        exact hreached.cons hfresh
      · exact absurd h not_mem_nil

end Meetings

/-! ## Invariants of an export -/

section Invariants
variable {I : Dest → Prop}

theorem writeFile_preserves (content : Content)
    (h : ∀ d t, I d → Dest.Filling effect name d t → I t) :
    (writeFile effect name content).Preserves I := by
  refine ⟨fun d hd => ?_, fun d hd t ht => h d t hd (writeFile_cut ht)⟩
  rw [(writeFile_returns effect name content d).2]
  exact h d _ hd (.written effect name content d)

theorem writeAtomic_preserves (content : Content)
    (hfill : ∀ d t, I d → Dest.Filling (.write (temporary stem extension))
      (temporary stem extension) d t → I t)
    (hrename : ∀ d, I d → I (d.rename (temporary stem extension) (stem ++ extension))) :
    (writeAtomic stem extension content).Preserves I :=
  (writeFile_preserves content hfill).bind fun _ => step hrename

variable {render : Render} {db : Library}

theorem exportMeetings_preserves {resume : Bool} {ids : List String}
    (h : ∀ id ∈ ids, ∀ content, (writeAtomic (documentStem id) ".json" content).Preserves I ∧
      (writeAtomic (markdownStem id) ".md" content).Preserves I) :
    (exportMeetings render resume db ids).Preserves I := by
  induction ids with
  | nil => exact pure
  | cons id ids ih =>
    obtain ⟨hid, hids⟩ := forall_mem_cons.mp h
    have hone : (exportOne render resume db id).Preserves I := by
      refine read.bind fun intact => ?_
      split
      · exact pure
      · exact read.bind fun doc => (hid _).1.bind fun _ => (hid _).2.bind fun _ =>
          pure
    exact hone.bind fun _ => (ih hids).bind fun _ => pure

theorem copyTemplates_preserves {entries : List (String × Node)}
    (h : ∀ e ∈ entries, isMarkdown e.1 = true → ∀ content,
      (writeFile (.write ("templates/" ++ e.1)) ("templates/" ++ e.1) content).Preserves I) :
    (copyTemplates entries).Preserves I := by
  induction entries with
  | nil => exact pure
  | cons e entries ih =>
    obtain ⟨name, node⟩ := e
    obtain ⟨hfirst, hrest⟩ := forall_mem_cons.mp h
    have hone : (copyTemplate name node).Preserves I := by
      unfold copyTemplate
      split
      · next hname =>
        exact read.bind fun content => hfirst hname content
      · exact pure
    exact hone.bind fun _ => ih hrest

theorem copyMediaOut_preserves {root : String → Option Content} {wanted : List (String × Bool)}
    (h : ∀ w ∈ wanted, ∀ content, root w.1 = some content →
      (writeFile (.copy w.1 w.1) w.1 content).Preserves I) :
    (copyMediaOut root wanted).Preserves I := by
  induction wanted with
  | nil => exact pure
  | cons w wanted ih =>
    obtain ⟨rel, isAudio⟩ := w
    obtain ⟨hfirst, hrest⟩ := forall_mem_cons.mp h
    unfold copyMediaOut
    cases hroot : root rel with
    | none => exact (ih hrest).bind fun _ => pure
    | some content =>
      exact (hfirst content hroot).bind fun _ => (ih hrest).bind fun _ => pure

theorem exportShared_preserves {options : ArchiveOptions} {now : ℤ}
    (hdocuments : ∀ content, (writeAtomic "library" ".json" content).Preserves I ∧
      (writeAtomic "README" ".txt" content).Preserves I)
    (htemplates : ∀ e ∈ options.templatesDir.getD [], isMarkdown e.1 = true → ∀ content,
      (writeFile (.write ("templates/" ++ e.1)) ("templates/" ++ e.1) content).Preserves I)
    (hmedia : ∀ root ∈ options.dataRoot, ∀ w ∈ db.wanted options.includeAudio, ∀ content,
      root w.1 = some content → (writeFile (.copy w.1 w.1) w.1 content).Preserves I) :
    (exportShared render options now db).Preserves I := by
  refine (hdocuments _).1.bind fun _ => (hdocuments _).2.bind fun _ =>
    (copyTemplates_preserves htemplates).bind fun _ => ?_
  split
  · exact pure
  · next root hroot =>
    exact copyMediaOut_preserves (hmedia root hroot)

end Invariants

/-! ## What follows the meetings -/

section Shared
variable {files files' : String → Option Content} {puts : List (String × Content)} {name : String}

def putAll (files : String → Option Content) (puts : List (String × Content)) :
    String → Option Content :=
  puts.foldl (fun f p => if isTemporary p.1 then f else Function.update f p.1 (some p.2)) files

theorem putAll_append {more : List (String × Content)} :
    putAll files (puts ++ more) = putAll (putAll files puts) more := foldl_append

theorem putAll_other (h : name ∉ puts.map Prod.fst) : putAll files puts name = files name := by
  induction puts generalizing files with
  | nil => rfl
  | cons p puts ih =>
    rw [map_cons, mem_cons, not_or] at h
    refine (ih h.2).trans ?_
    dsimp only
    split
    · rfl
    · exact update_of_ne h.1 _ _

theorem putAll_temporary (h : isTemporary name = true) : putAll files puts name = files name := by
  induction puts generalizing files with
  | nil => rfl
  | cons p puts ih =>
    refine ih.trans ?_
    dsimp only
    split
    · rfl
    · next hp =>
      refine update_of_ne ?_ _ _
      rintro rfl
      exact hp h

/-- What is put does not depend on what was there. -/
theorem putAll_named (hname : isTemporary name = false) (h : name ∈ puts.map Prod.fst) :
    putAll files puts name = putAll files' puts name := by
  induction puts generalizing files files' with
  | nil => cases h
  | cons p puts ih =>
    by_cases hrest : name ∈ puts.map Prod.fst
    · exact ih hrest
    · rw [map_cons, mem_cons] at h
      obtain rfl := h.resolve_right hrest
      refine (putAll_other hrest).trans (Eq.trans ?_ (putAll_other hrest).symm)
      dsimp only
      rw [hname, if_neg Bool.false_ne_true, if_neg Bool.false_ne_true, update_self, update_self]

def templatePuts (entries : List (String × Node)) : List (String × Content) :=
  entries.filterMap fun e =>
    if isMarkdown e.1 then e.2.content.map ("templates/" ++ e.1, ·) else none

def mediaPuts (root : String → Option Content) (wanted : List (String × Bool)) :
    List (String × Content) :=
  wanted.filterMap fun w => (root w.1).map (w.1, ·)

def sharedPuts (render : Render) (options : ArchiveOptions) (now : ℤ) (db : Library) :
    List (String × Content) :=
  [("library.json", render.json.manifest.toVec (db.manifest now options.includeAudio)),
    ("README.txt", readme)] ++ templatePuts (options.templatesDir.getD []) ++
  match options.dataRoot with
  | none => []
  | some root => mediaPuts root (db.wanted options.includeAudio)

/-- What is put is always put under the same names. -/
def sharedNames (options : ArchiveOptions) (db : Library) : List String :=
  ["library.json", "README.txt"] ++ (templatePuts (options.templatesDir.getD [])).map Prod.fst ++
  match options.dataRoot with
  | none => []
  | some root => (mediaPuts root (db.wanted options.includeAudio)).map Prod.fst

variable {options : ArchiveOptions} {render : Render} {now : ℤ} {db : Library}

theorem sharedPuts_names :
    (sharedPuts render options now db).map Prod.fst = sharedNames options db := by
  unfold sharedPuts sharedNames
  rw [map_append, map_append]
  cases options.dataRoot <;> rfl

/-- Every template entry that is copied is a file. -/
def Copyable (entries : List (String × Node)) : Prop :=
  ∀ e ∈ entries, isMarkdown e.1 = true → e.2.content.isSome

theorem writeFile_settled (d : Dest) (effect : Effect) (content : Content) :
    (d.written effect name content).settled = putAll d.settled [(name, content)] := by
  show _ = if isTemporary name then d.settled else update d.settled name (some content)
  cases hname : isTemporary name with
  | true => exact (Dest.Filling.written effect name content d).settled hname
  | false => exact settled_written hname

theorem copyTemplate_returns {node : Node}
    (h : isMarkdown name = true → node.content.isSome) (d : Dest) :
    ∃ e, (copyTemplate name node).Returns d () e ∧
      Leaves d e (putAll d.settled (templatePuts [(name, node)])) [] := by
  unfold copyTemplate
  cases hname : isMarkdown name with
  | false =>
    refine ⟨d, .pure, ?_⟩
    simp only [templatePuts, filterMap_cons, filterMap_nil, hname, Bool.false_eq_true, if_false]
    exact .refl d
  | true =>
    obtain ⟨content, hcontent⟩ := isSome_iff_exists.mp (h hname)
    refine ⟨_, .bind (.read (okOr_eq_ok.mpr hcontent)) (writeFile_returns _ _ content d),
      { writeFile_leaves .. with settled := ?_, logged := nil_subset _ }⟩
    rw [writeFile_settled]
    simp only [templatePuts, filterMap_cons, filterMap_nil, hname, if_true, hcontent, map_some]

theorem templatePuts_cons (e : String × Node) (entries : List (String × Node)) :
    templatePuts (e :: entries) = templatePuts [e] ++ templatePuts entries := by
  unfold templatePuts
  rw [← filterMap_append]
  rfl

variable {entries : List (String × Node)}

theorem copyTemplates_returns (h : Copyable entries) (d : Dest) :
    ∃ e, (copyTemplates entries).Returns d () e ∧
      Leaves d e (putAll d.settled (templatePuts entries)) [] := by
  induction entries generalizing d with
  | nil => exact ⟨d, .pure, .refl d⟩
  | cons e entries ih =>
    obtain ⟨name, node⟩ := e
    obtain ⟨hfirst, hrest⟩ := forall_mem_cons.mp h
    obtain ⟨d1, hone, hleft1⟩ := copyTemplate_returns hfirst d
    obtain ⟨d2, hmore, hleft2⟩ := ih hrest d1
    refine ⟨d2, hone.bind hmore, ?_⟩
    rw [templatePuts_cons (name, node) entries, putAll_append, ← hleft1.settled]
    exact hleft1.trans hleft2

variable {e : Dest}

/-- The entries decide, not the destination. -/
theorem copyTemplates_ok (h : (copyTemplates entries).Returns d () e) : Copyable entries := by
  induction entries generalizing d with
  | nil => exact nofun
  | cons entry entries ih =>
    obtain ⟨⟨⟩, d1, hfirst, hrest⟩ := returns_bind.mp h
    refine forall_mem_cons.mpr ⟨fun hname => ?_, ih hrest⟩
    unfold copyTemplate at hfirst
    rw [if_pos hname] at hfirst
    obtain ⟨content, _, hread, -⟩ := returns_bind.mp hfirst
    exact isSome_iff_exists.mpr ⟨content, okOr_eq_ok.mp (returns_read.mp hread).1⟩

theorem copyMediaOut_returns (root : String → Option Content) (wanted : List (String × Bool))
    (d : Dest) : ∃ counts e, (copyMediaOut root wanted).Returns d counts e ∧
      Leaves d e (putAll d.settled (mediaPuts root wanted))
        ((mediaPuts root wanted).map fun put => .copy put.1 put.1) := by
  induction wanted generalizing d with
  | nil => exact ⟨_, d, .pure, .refl d⟩
  | cons w wanted ih =>
    obtain ⟨rel, isAudio⟩ := w
    unfold copyMediaOut
    cases hroot : root rel with
    | none =>
      obtain ⟨counts, e, hmore, hleft⟩ := ih d
      refine ⟨_, e, hmore.bind .pure, ?_⟩
      rw [mediaPuts, filterMap_cons]
      simp only [hroot, map_none]
      exact hleft
    | some content =>
      obtain ⟨counts, e, hmore, hleft⟩ := ih (d.written (.copy rel rel) rel content)
      refine ⟨_, e, (writeFile_returns _ _ content d).bind (hmore.bind .pure), ?_⟩
      have hputs : mediaPuts root ((rel, isAudio) :: wanted) =
          [(rel, content)] ++ mediaPuts root wanted := by
        rw [mediaPuts, filterMap_cons]
        simp only [hroot, map_some]
        rfl
      rw [hputs, putAll_append, ← writeFile_settled]
      exact (writeFile_leaves ..).trans hleft

theorem putAll_singleton (hname : isTemporary name = false) :
    putAll files [(name, content)] = update files name (some content) := by
  show (if isTemporary name then _ else _) = _
  rw [hname]
  rfl

section
variable (options : ArchiveOptions) (db : Library)

/-- The media, if there is a data root. -/
def copiedPuts : List (String × Content) :=
  match options.dataRoot with
  | none => []
  | some root => mediaPuts root (db.wanted options.includeAudio)

theorem copyMedia_returns (d : Dest) : ∃ counts e, (match options.dataRoot with
      | none => (pure (0, 0, []) : Export (ℕ × ℕ × List String))
      | some root => copyMediaOut root (db.wanted options.includeAudio)).Returns d counts e ∧
      Leaves d e (putAll d.settled (copiedPuts options db))
        ((copiedPuts options db).map fun put => .copy put.1 put.1) := by
  unfold copiedPuts
  cases options.dataRoot with
  | none => exact ⟨_, d, .pure, .refl d⟩
  | some root => exact copyMediaOut_returns root _ d

end

theorem exportShared_returns (render : Render) (now : ℤ) (db : Library)
    (h : Copyable (options.templatesDir.getD [])) (d : Dest) :
    ∃ counts e, (exportShared render options now db).Returns d counts e ∧
      Leaves d e (putAll d.settled (sharedPuts render options now db))
        ((copiedPuts options db).map fun put => .copy put.1 put.1) := by
  have hlibrary : isTemporary ("library" ++ ".json") = false := isTemporary_append rfl (by decide)
  have hwarning : isTemporary ("README" ++ ".txt") = false := isTemporary_append rfl (by decide)
  obtain ⟨d1, hmanifest, hput1⟩ := writeAtomic_returns "library" ".json"
    (render.json.manifest.toVec (db.manifest now options.includeAudio)) hlibrary d
  obtain ⟨d2, hreadme, hput2⟩ := writeAtomic_returns "README" ".txt" readme hwarning d1
  obtain ⟨d3, htemplates, hleft3⟩ := copyTemplates_returns h d2
  obtain ⟨counts, d4, hmedia, hleft4⟩ := copyMedia_returns options db d3
  have hleft := ((hput1.trans hput2).trans hleft3).trans hleft4
  refine ⟨counts, d4, hmanifest.bind (hreadme.bind (htemplates.bind hmedia)),
    { hleft with settled := ?_, logged := hleft4.logged }⟩
  rw [hleft.settled, hleft3.settled, hput2.settled, hput1.settled, ← putAll_singleton hlibrary,
    ← putAll_singleton hwarning, ← putAll_append, ← putAll_append, ← putAll_append]
  rfl

/-- The destination does not decide whether the second half of an export ends well. -/
theorem exportShared_ok {counts : ℕ × ℕ × List String}
    (h : (exportShared render options now db).Returns d counts e) :
    Copyable (options.templatesDir.getD []) := by
  obtain ⟨-, d1, -, h1⟩ := returns_bind.mp h
  obtain ⟨-, d2, -, h2⟩ := returns_bind.mp h1
  obtain ⟨⟨⟩, d3, h3, -⟩ := returns_bind.mp h2
  exact copyTemplates_ok h3

end Shared

/-! ## A whole export -/

section Whole
variable {render : Render} {options : ArchiveOptions} {now : ℤ} {db : Library}

/-- A destination that an export does not refuse. -/
def Accepted (d : Dest) : Prop :=
  match d.place with
  | .missing | .directory false => True
  | .notADirectory => False
  | .directory true => (d.files "library.json").isSome

variable {d e t : Dest}

theorem prepareDestination_returns (h : Accepted d) :
    ∃ e, prepareDestination.Returns d () e ∧ e.files = d.files := by
  unfold Accepted at h
  cases hplace : d.place with
  | missing =>
    exact ⟨_, .bind (.read (congrArg Except.ok hplace)) (.step rfl), rfl⟩
  | notADirectory =>
    rw [hplace] at h
    exact h.elim
  | directory occupied =>
    refine ⟨d, .bind (.read (congrArg Except.ok hplace)) ?_, rfl⟩
    cases occupied with
    | false => exact .pure
    | true =>
      rw [hplace] at h
      refine .read (refuseIf_eq_ok.mpr ?_)
      rw [← not_isSome, h]
      rfl

theorem prepareDestination_ok (h : prepareDestination.Returns d () e) : Accepted d := by
  obtain ⟨place, d1, hread, hrest⟩ := returns_bind.mp h
  obtain ⟨hplace, rfl⟩ := returns_read.mp hread
  obtain rfl := Except.ok.inj hplace
  unfold Accepted
  split
  · trivial
  · trivial
  · next hplace =>
    rw [hplace] at hrest
    exact (nomatch (returns_read.mp hrest).1)
  · next hplace =>
    rw [hplace] at hrest
    have hfile := refuseIf_eq_ok.mp (returns_read.mp hrest).1
    rw [← not_isSome, Bool.not_eq_false'] at hfile
    exact hfile

theorem createDir_returns (d : Dest) : createDir.Returns d () { d with place := .directory true } :=
  .step rfl

theorem settled_of_files (h : e.files = d.files) : e.settled = d.settled :=
  settled_congr fun name _ => congrFun h name

theorem exportLibrary_returns (render : Render) (options : ArchiveOptions) (now : ℤ) (db : Library)
    (htemplates : Copyable (options.templatesDir.getD [])) (hd : Accepted d) :
    ∃ report e, (exportLibrary render options now db).Returns d report e ∧
      e.settled = putAll (afterMeetings render db options.resume d.settled db.meetingIds)
        (sharedPuts render options now db) ∧
      (if options.resume then [] else db.meetingIds.flatMap documentEffects) ⊆ e.log ∧
      ((copiedPuts options db).map fun put => .copy put.1 put.1) ⊆ e.log := by
  obtain ⟨d1, hprepare, hfiles⟩ := prepareDestination_returns hd
  obtain ⟨written, d2, hmeetings, hleft2⟩ := exportMeetings_returns render options.resume
    (fun _ => Library.exportMeeting_isSome) { d1 with place := .directory true }
  obtain ⟨counts, d3, hshared, hleft3⟩ := exportShared_returns render now db htemplates d2
  refine ⟨_, d3, hprepare.bind <| (createDir_returns d1).bind <| (createDir_returns _).bind <|
    hmeetings.bind <| hshared.bind .pure, ?_, Subset.trans hleft2.logged hleft3.kept, hleft3.logged⟩
  have hstart : settled { d1 with place := .directory true } = d.settled :=
    settled_of_files hfiles
  rw [hleft3.settled, hleft2.settled, hstart]

/-- Nothing changed but what comes after the meetings. -/
def Apart (names : List String) (d t : Dest) : Prop :=
  ∀ name ∉ names, t.settled name = d.settled name

variable {names : List String}

theorem Apart.filling {u : Dest} (h : Apart names d t)
    (hfill : Dest.Filling effect name t u) (hname : name ∈ names ∨ isTemporary name = true) :
    Apart names d u := by
  intro other hother
  rw [← h other hother]
  rcases hname with hname | hname
  · have hne : other ≠ name := by
      rintro rfl
      exact hother hname
    unfold settled
    rw [hfill.others other hne]
  · exact congrFun (hfill.settled hname) other

theorem Apart.rename {source target : String} (h : Apart names d t)
    (hsource : isTemporary source = true) (htarget : target ∈ names) :
    Apart names d (t.rename source target) := by
  intro other hother
  rw [← h other hother]
  have hne : other ≠ target := by
    rintro rfl
    exact hother htarget
  unfold Dest.settled
  cases hkind : isTemporary other with
  | true => rfl
  | false =>
    have hne' : other ≠ source := by
      rintro rfl
      rw [hsource] at hkind
      cases hkind
    simp only [Dest.rename, update_apply, if_neg hne, if_neg hne']

theorem exportShared_apart (htemplates : Copyable (options.templatesDir.getD [])) (d : Dest) :
    (exportShared render options now db).Preserves (Apart (sharedNames options db) d) := by
  refine exportShared_preserves (fun content => ⟨?_, ?_⟩) (fun e he hname content => ?_)
    fun root hroot w hw content hcontent => ?_
  · exact writeAtomic_preserves content
      (fun _ _ h hfill => h.filling hfill (.inr (isTemporary_temporary _ _)))
      fun _ h => h.rename (isTemporary_temporary _ _) mem_cons_self
  · exact writeAtomic_preserves content
      (fun _ _ h hfill => h.filling hfill (.inr (isTemporary_temporary _ _)))
      fun _ h => h.rename (isTemporary_temporary _ _) (mem_cons_of_mem _ mem_cons_self)
  · refine writeFile_preserves content fun _ _ h hfill => h.filling hfill (.inl ?_)
    obtain ⟨found, hfound⟩ := isSome_iff_exists.mp (htemplates e he hname)
    refine mem_append_left _ (mem_append_right _ (mem_map.mpr
      ⟨("templates/" ++ e.1, found), mem_filterMap.mpr ⟨e, he, ?_⟩, rfl⟩))
    rw [if_pos hname, hfound]
    rfl
  · refine writeFile_preserves content fun _ _ h hfill => h.filling hfill (.inl ?_)
    refine mem_append_right _ ?_
    rw [hroot]
    refine mem_map.mpr ⟨(w.1, content), mem_filterMap.mpr ⟨w, hw, ?_⟩, rfl⟩
    rw [hcontent]
    rfl

theorem prepareDestination_preserves (files : String → Option Content) :
    prepareDestination.Preserves fun d => d.files = files := by
  refine read.bind fun place => ?_
  split
  · exact step fun _ h => h
  · exact read
  · exact pure
  · exact read

/-- The states of an export that is not refused. -/
theorem exportLibrary_cut (hnodup : db.meetingIds.Nodup)
    (htemplates : Copyable (options.templatesDir.getD [])) (hd : Accepted d)
    (h : t ∈ (exportLibrary render options now db d).trace) :
    ∀ name ∉ sharedNames options db,
      Reached render db options.resume d.settled db.meetingIds name (t.settled name) := by
  obtain ⟨d1, hprepare, hfiles⟩ := prepareDestination_returns hd
  have hstart : settled { d1 with place := .directory true } = d.settled :=
    settled_of_files hfiles
  have hids : ∀ id ∈ db.meetingIds, (db.exportMeeting id).isSome :=
    fun _ => Library.exportMeeting_isSome
  obtain ⟨written, d2, hmeetings, hleft⟩ :=
    exportMeetings_returns render options.resume hids { d1 with place := .directory true }
  obtain ⟨counts, d3, hshared, -⟩ := exportShared_returns render now db htemplates d2
  intro name hname
  rcases hprepare.mem_trace h with h | h
  · rw [settled_of_files ((prepareDestination_preserves d.files).crash d rfl t h)]
    exact .inl rfl
  rcases (createDir_returns d1).mem_trace h with h | h
  · rw [mem_singleton.mp h]
    exact .inl (congrFun hstart name)
  rcases (createDir_returns _).mem_trace h with h | h
  · rw [mem_singleton.mp h]
    exact .inl (congrFun hstart name)
  rcases hmeetings.mem_trace h with h | h
  · have hreached := exportMeetings_cut hnodup hids h name
    rw [hstart] at hreached
    exact hreached
  rcases hshared.mem_trace h with h | h
  · have hapart := (exportShared_apart htemplates d2).crash d2 (fun _ _ => rfl) t h
    rw [hapart name hname, hleft.settled, hstart]
    exact afterMeetings_reached hnodup
  · exact absurd h not_mem_nil

theorem exportLibrary_ok {report : ArchiveReport}
    (h : (exportLibrary render options now db).Returns d report e) :
    Accepted d ∧ Copyable (options.templatesDir.getD []) := by
  obtain ⟨⟨⟩, d1, hprepare, h⟩ := returns_bind.mp h
  obtain ⟨⟨⟩, d2, -, h⟩ := returns_bind.mp h
  obtain ⟨⟨⟩, d3, -, h⟩ := returns_bind.mp h
  obtain ⟨written, d4, -, h⟩ := returns_bind.mp h
  obtain ⟨counts, d5, hshared, -⟩ := returns_bind.mp h
  exact ⟨prepareDestination_ok hprepare, exportShared_ok hshared⟩

end Whole

end FlyOnTheWall.Store
