import DeploymentRecords.Proofs.Schedule
import DeploymentRecords.Proofs.SheetReading
import Mathlib.Data.List.Nodup

/-! # Trees of sheets

A document draws a sheet if its tree has a table for each section, in which every entry stands for
one line. What is read from the text of a sheet draws it, and what is written for a document that
draws a sheet is laid out in the lines of this sheet again. -/

namespace DeploymentRecords.Sheet

open Text Toml Sorting

structure Field.Drawn (field : Field) (entry : Key × Member) : Prop where
  name : entry.1.name = field.name
  spelling : entry.1.spelling = field.name
  around : ∃ u, Ended (field.remarks.map Subtype.val) u ∧
    entry.1.outer.getD Statement.newKey = ⟨u ++ field.lead, field.beforeSign⟩
  value : ∃ v around, entry.2 = .expr (.scalar v field.value around) ∧
    around.getD Expr.spaced = ⟨field.afterSign, field.trail⟩

structure Section.Drawn (sec : Section) (key : Key) (around : Surround) (entries : Entries) : Prop where
  name : key.name = sec.name
  spelling : key.spelling = sec.name
  before : key.before = []
  outer : key.outer.getD Expr.bare = ⟨sec.before, sec.after⟩
  around : ∃ u, Ended (sec.remarks.map Subtype.val) u ∧ around = ⟨u ++ sec.lead, sec.trail⟩
  fields : List.Forall₂ Field.Drawn sec.fields entries

inductive Drawn : Nat → List Section → Entries → Prop
  | nil {n : Nat} : Drawn n [] []
  | cons {n : Nat} {sec : Section} {key : Key} {around : Surround} {sub entries : Entries}
      {sections : List Section} : sec.Drawn key around sub → Drawn (n + 1) sections entries →
        Drawn n (sec :: sections) ((key, .table (.headed ⟨around, n + 1⟩) sub) :: entries)

/-- All tables are below the one of the networks, which has no header. -/
def rootOf (entries : Entries) : Entries := [(networksKey, .table .implied entries)]

def assigns (entries : Entries) : List Statement :=
  (Member.entriesBody [] entries).map fun q => .assign q.1 q.2

def tableStatements (key : Key) (around : Surround) (entries : Entries) : List Statement :=
  .header false [networksKey, key] around :: assigns entries

variable {fields : List Field} {sections : List Section} {entries done sub : Entries} {n : Nat}
  {key : Key} {around : Surround}

theorem names_of_fields (h : List.Forall₂ Field.Drawn fields entries) :
    names entries = fields.map fun field => (field.name : Text) := by
  induction h with
  | nil => rfl
  | cons hfield _ ih => rw [names, List.map_cons, List.map_cons, hfield.name, ← ih]; rfl

theorem names_of_drawn (h : Drawn n sections entries) :
    names entries = sections.map fun sec => (sec.name : Text) := by
  induction h with
  | nil => rfl
  | cons hsec _ ih => rw [names, List.map_cons, List.map_cons, hsec.name, ← ih]; rfl

theorem Section.Drawn.nodup {sec : Section} (h : sec.Drawn key around entries) :
    (names entries).Nodup := by
  have hnames : names entries = (sec.fields.map Field.name).map Subtype.val := by
    rw [names_of_fields h.fields, List.map_map]
    rfl
  rw [hnames]
  exact List.Nodup.map Subtype.val_injective sec.distinct

theorem assigns_cons {field : Field} {entry : Key × Member} (h : field.Drawn entry) (entries : Entries) :
    ∃ v around, entry.2 = .expr (.scalar v field.value around) ∧
      assigns (entry :: entries) = .assign [entry.1] (.scalar v field.value around) :: assigns entries := by
  obtain ⟨v, around, hvalue, -⟩ := h.value
  obtain ⟨key, member⟩ := entry
  subst hvalue
  exact ⟨v, around, rfl, rfl⟩

theorem Field.readsAs (field : Field) : ReadsAs field.lines fun sts =>
    ∃ entry, field.Drawn entry ∧ sts = assigns [entry] := by
  have hline : field.line = field.lead ++ (field.name ++ (field.beforeSign ++
      '=' :: (field.afterSign ++ (field.value ++ field.trail)))) := rfl
  rw [lines, hline]
  refine ReadsAs.imp (readsAs_statement field.remarks field.lead
    (P := fun above st => ∃ v, st = .assign [lineKey field.name above field.beforeSign]
      (.scalar v field.value (some ⟨field.afterSign, field.trail⟩)))
    ?_ fun above e next he => ?_) ?_
  · obtain ⟨c, w, hc, hw⟩ := (sound_bare field.name none none (by simp)).opening
    have hfacts := isKeyHead_facts hc
    exact ⟨c, _, by rw [show (field.name : Text) = c :: w from hw]; rfl, hfacts.1,
      fun e => hfacts.2 (by simp [e])⟩
  · obtain ⟨v, hread⟩ := field.read? above he
    exact ⟨_, ⟨v, rfl⟩, by simpa using hread⟩
  · rintro _ ⟨u, _, hu, ⟨v, rfl⟩, rfl⟩
    exact ⟨(lineKey field.name (u ++ field.lead) field.beforeSign,
      .expr (.scalar v field.value (some ⟨field.afterSign, field.trail⟩))),
      ⟨rfl, rfl, ⟨u, hu, rfl⟩, v, _, rfl, rfl⟩, rfl⟩

theorem exists_entries {parts : List (List Statement)}
    (h : List.Forall₂ (fun field sts => ∃ entry, Field.Drawn field entry ∧ sts = assigns [entry])
      fields parts) :
    ∃ entries, List.Forall₂ Field.Drawn fields entries ∧ parts.flatten = assigns entries := by
  induction h with
  | nil => exact ⟨[], .nil, rfl⟩
  | cons hpart _ ih =>
    obtain ⟨entry, hentry, rfl⟩ := hpart
    obtain ⟨entries, hentries, hflatten⟩ := ih
    exact ⟨entry :: entries, .cons hentry hentries, by
      rw [List.flatten_cons, hflatten]
      simp [assigns, Member.entriesBody]⟩

theorem Section.readsAs (sec : Section) : ReadsAs sec.lines fun sts =>
    ∃ key around entries, sec.Drawn key around entries ∧ sts = tableStatements key around entries := by
  let core : Text := '[' :: (sec.before ++ (Plan.networksKey ++
    '.' :: (sec.name ++ (sec.after ++ ']' :: sec.trail))))
  have hread : ∀ (above : Text) {e next : Text}, LineEnd e next →
      ∃ st, st = Statement.header false [networksKey, lineKey sec.name sec.before sec.after]
          ⟨above, sec.trail⟩ ∧ Statement.read? above (core ++ e) = some (st, next) :=
    fun above e next he => ⟨_, rfl, by simpa [core] using sec.read? above he⟩
  have hhead := readsAs_statement sec.remarks sec.lead ⟨'[', _, rfl, by decide, by decide⟩ hread
  refine (hhead.append (readsAs_flatMap Field.readsAs sec.fields)).imp ?_
  rintro _ ⟨_, _, ⟨u, _, hu, rfl, rfl⟩, ⟨parts, hparts, rfl⟩, rfl⟩
  obtain ⟨entries, hentries, hflatten⟩ := exists_entries hparts
  exact ⟨_, _, entries, ⟨rfl, rfl, rfl, rfl, ⟨u, hu, rfl⟩, hentries⟩, by rw [hflatten]; rfl⟩

theorem reach?_networks (change : Entries → Option Entries) (path : List Key) (entries : Entries) :
    Entries.reach? change (networksKey :: path) (rootOf entries) =
      (Entries.reach? change path entries).map rootOf := by
  rw [rootOf, Entries.reach?, Entries.get?_cons, if_pos rfl]
  simp only [Entries.replace, List.map_cons, List.map_nil, if_true]
  rfl

theorem reach?_last {kind : TableKind} (hkey : key.name ∉ names done)
    (change : Entries → Option Entries) : Entries.reach? change [key] (done ++ [(key, .table kind sub)]) =
      (change sub).map fun sub => done ++ [(key, .table kind sub)] := by
  have hget : Entries.get? key.name (done ++ [(key, .table kind sub)]) = some (.table kind sub) := by
    rw [Entries.get?_append, Entries.get?_eq_none_iff.mpr hkey]
    simp [Entries.get?_cons]
  rw [Entries.reach?, hget]
  simp only [Entries.reach?, Entries.replace, replace_last hkey]

theorem add?_header (hkey : key.name ∉ names done) (current : List Key) :
    Document.Draft.add? ⟨rootOf done, current, n⟩ (.header false [networksKey, key] around) =
      some ⟨rootOf (done ++ [(key, .table (.headed ⟨around, n + 1⟩) [])]), [networksKey, key], n + 1⟩ := by
  have hopen : Entries.reach? (Entries.openTable? ⟨around, n + 1⟩ key) [] done =
      some (done ++ [(key, .table (.headed ⟨around, n + 1⟩) [])]) := by
    rw [Entries.reach?, Entries.openTable?, Entries.get?_eq_none_iff.mpr hkey]
  simp only [Document.Draft.add?, List.getLast?_cons_cons, List.getLast?_singleton, List.dropLast,
    Bool.false_eq_true, if_false, reach?_networks, hopen, Option.map_some]

theorem add?_assign {k : Key} {e : Expr} {kind : TableKind} (hkey : key.name ∉ names done)
    (hk : k.name ∉ names sub) :
    Document.Draft.add? ⟨rootOf (done ++ [(key, .table kind sub)]), [networksKey, key], n⟩
        (.assign [k] e) =
      some ⟨rootOf (done ++ [(key, .table kind (sub ++ [(k, .expr e)]))]), [networksKey, key], n⟩ := by
  have hassign : Entries.assign? true [k] e sub = some (sub ++ [(k, .expr e)]) := by
    rw [Entries.assign?, Entries.get?_eq_none_iff.mpr hk]
    rfl
  simp only [Document.Draft.add?, reach?_networks, reach?_last hkey, hassign, Option.map_some]

theorem foldlM_assigns {kind : TableKind} (hkey : key.name ∉ names done)
    (h : List.Forall₂ Field.Drawn fields entries) (hnodup : (names (sub ++ entries)).Nodup) :
    (assigns entries).foldlM Document.Draft.add?
        ⟨rootOf (done ++ [(key, .table kind sub)]), [networksKey, key], n⟩ =
      some ⟨rootOf (done ++ [(key, .table kind (sub ++ entries))]), [networksKey, key], n⟩ := by
  induction h generalizing sub with
  | nil => rw [List.append_nil]; rfl
  | @cons field entry fields entries hfield _ ih =>
    obtain ⟨v, around, hvalue, hcons⟩ := assigns_cons hfield entries
    have hentry : entry = (entry.1, .expr (.scalar v field.value around)) := by rw [← hvalue]
    have hfresh : entry.1.name ∉ names sub := by
      rw [names, List.map_append, List.nodup_append] at hnodup
      exact fun hm => hnodup.2.2 _ hm _ (by simp) rfl
    have hsplit : sub ++ entry :: entries = (sub ++ [entry]) ++ entries := by simp
    rw [hsplit] at hnodup ⊢
    rw [hcons, List.foldlM_cons, add?_assign hkey hfresh, ← hentry]
    exact ih hnodup

theorem foldlM_sections {parts : List (List Statement)}
    (h : List.Forall₂ (fun sec sts => ∃ key around entries, Section.Drawn sec key around entries ∧
      sts = tableStatements key around entries) sections parts)
    (hnodup : (names done ++ sections.map fun sec => (sec.name : Text)).Nodup) (current : List Key) :
    ∃ entries current', Drawn n sections entries ∧
      parts.flatten.foldlM Document.Draft.add? ⟨rootOf done, current, n⟩ =
        some ⟨rootOf (done ++ entries), current', n + sections.length⟩ := by
  induction h generalizing done n current with
  | nil => exact ⟨[], current, .nil, by rw [List.append_nil]; rfl⟩
  | @cons sec part sections parts hpart _ ih =>
    obtain ⟨key, around, entries, hdrawn, rfl⟩ := hpart
    have hkey : key.name ∉ names done := by
      rw [List.nodup_append] at hnodup
      exact fun hm => hnodup.2.2 _ hm _ List.mem_cons_self hdrawn.name
    have hfields : (names ([] ++ entries)).Nodup := hdrawn.nodup
    have hrest : (names (done ++ [(key, .table (.headed ⟨around, n + 1⟩) entries)]) ++
        sections.map fun sec => (sec.name : Text)).Nodup := by
      simpa [names, hdrawn.name] using hnodup
    obtain ⟨rest, current', hrest, hfold⟩ := ih hrest [networksKey, key]
    refine ⟨_, current', .cons hdrawn hrest, ?_⟩
    rw [List.flatten_cons, List.foldlM_append, tableStatements, List.foldlM_cons, add?_header hkey]
    simp only [Option.bind_eq_bind, Option.bind_some, foldlM_assigns hkey hdrawn.fields hfields,
      List.nil_append, hfold]
    simp [Nat.add_comm, Nat.add_left_comm]

structure Draws (sheet : Sheet) (doc : Document) : Prop where
  root : ∃ entries, doc.root = rootOf entries ∧ Drawn 0 sheet.sections entries
  trail : Laid (sheet.remarks.map Subtype.val) doc.trail

/-- A text that is laid out as a sheet is read as a document that draws it. -/
theorem exists_drawn (sheet : Sheet) (hsections : sheet.sections ≠ []) {s : Text}
    (h : Laid sheet.lines s) : ∃ doc, Document.read? s = some doc ∧ sheet.Draws doc := by
  obtain ⟨_, r, ⟨parts, hparts, rfl⟩, hr, hread⟩ :=
    readsAs_flatMap Section.readsAs sheet.sections _ s h
  have hrest : Statement.readAll? r = some ([], r) := by
    have htaken := taken_append r []
    rw [List.append_nil] at htaken
    rw [Statement.readAll?]
    simp only [hr.afterGap_eq_nil (forall_trail sheet.remarks), if_true, htaken]
  rw [hrest, Option.map_some, List.append_nil] at hread
  have hnodup : (names ([] : Entries) ++ sheet.sections.map fun sec => (sec.name : Text)).Nodup := by
    have := List.Nodup.map Subtype.val_injective sheet.distinct
    rwa [List.map_map] at this
  obtain ⟨entries, current, hdrawn, hfold⟩ := foldlM_sections (n := 0) hparts hnodup []
  have hempty : parts.flatten.foldlM Document.Draft.add? .empty =
      parts.flatten.foldlM Document.Draft.add? ⟨rootOf [], [], 0⟩ := by
    -- the first header makes the table that all others find
    obtain ⟨sec, sections, hcons⟩ := List.exists_cons_of_ne_nil hsections
    rw [hcons] at hparts
    obtain ⟨_, parts, ⟨key, around, entries, -, rfl⟩, -, rfl⟩ :=
      List.forall₂_cons_left_iff.mp hparts
    rfl
  refine ⟨⟨rootOf entries, r⟩, ?_, ⟨entries, rfl, hdrawn⟩, hr⟩
  rw [Document.read?, Statement.dropMark_eq hread, hread]
  simp only [Document.ofStatements?, hempty, hfold]
  rfl

end DeploymentRecords.Sheet
