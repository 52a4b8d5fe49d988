import DeploymentRecords.Proofs.Sheets
import DeploymentRecords.Proofs.StatementReading
import Mathlib.Data.List.Forall2

/-! # Reading sheets

A text laid out as a sheet is read line by line: each header and each field is one statement, and
the remarks above it come to stand in front of its key. The statements build a tree with one table
for each section, in which every entry draws the line that it was read from. -/

namespace DeploymentRecords

open Text Toml

theorem sound_bare (name : BareName) (inner outer : Option Surround)
    (hinner : ∀ around, inner = some around → Spaces around.before ∧ Spaces around.after) :
    Key.Sound ⟨name, name, inner, outer⟩ := by
  obtain ⟨name, hne, hname⟩ := name
  have hname := List.all_eq_true.mp hname
  obtain ⟨c, w, rfl⟩ := List.exists_cons_of_ne_nil hne
  exact ⟨⟨c, w, by simp [isKeyHead, hname c List.mem_cons_self], rfl⟩, Key.solid_of_isBareKey hname,
    fun r hr => Key.readName?_bare hne hname hr, hinner⟩

theorem read?_bareName (name : BareName) (b a : Blanks) {c : Char} (hc : isBlank c = false)
    (hbare : isBareKey c = false) (r : Text) : Key.read? (b ++ (name ++ (a ++ c :: r))) =
      some (⟨name, name, some ⟨b, a⟩, none⟩, c :: r) :=
  (sound_bare name none none (by simp)).read? b.2 a.2 hc hbare

def lineKey (name : BareName) (lead after : Text) : Key :=
  ⟨name, name, some ⟨[], []⟩, some ⟨lead, after⟩⟩

def networksKey : Key := ⟨Plan.networksKey, Plan.networksKey, some ⟨[], []⟩, none⟩

theorem readPathAfter?_field (lead : Text) (name : BareName) (after : Blanks) (r : Text) :
    Key.readPathAfter? lead (name ++ (after ++ '=' :: r)) = some ([lineKey name lead after], '=' :: r) := by
  have hread := read?_bareName name ⟨[], spaces_nil⟩ after (c := '=') (by decide) (by decide) r
  have hpath := Key.readPath?_end hread (by decide)
  simp only [List.nil_append] at hpath
  rw [Key.readPathAfter?, hpath]
  simp [Key.maxPath, Key.settle, Key.settleLast, Key.before, Key.after, lineKey]

theorem readPathAfter?_header (before : Blanks) (name : BareName) (after : Blanks) (r : Text) :
    Key.readPathAfter? [] (before ++ (Plan.networksKey ++ '.' :: (name ++ (after ++ ']' :: r)))) =
      some ([networksKey, lineKey name before after], ']' :: r) := by
  have hlast := Key.readPath?_end (read?_bareName name ⟨[], spaces_nil⟩ after (c := ']') (by decide)
    (by decide) r) (by decide)
  have hfirst := read?_bareName ⟨Plan.networksKey, by decide⟩ before ⟨[], spaces_nil⟩ (c := '.')
    (by decide) (by decide) (name ++ (after ++ ']' :: r))
  simp only [List.nil_append] at hlast hfirst
  have hpath := Key.readPath?_point hfirst
    (by simp only [List.length_append, List.length_cons]; omega) hlast
  rw [Key.readPathAfter?, hpath]
  simp [Key.maxPath, Key.settle, Key.settleLast, Key.before, Key.after, lineKey, networksKey]

theorem exists_written (value : PlainValue) : ∃ v : Scalar, v.Written value := by
  obtain ⟨w, -, hread | hread⟩ := value
  · obtain ⟨⟨t, r⟩, hread, hr⟩ := (Option.any_eq_true _ _).mp hread
    obtain rfl : r = [] := of_decide_eq_true hr
    obtain ⟨u, hu, hspells⟩ := spells_of_readString? hread
    rw [List.append_nil] at hu
    exact ⟨.string t, Or.inl ⟨t, rfl, hu ▸ hspells⟩⟩
  · obtain ⟨⟨v, r⟩, hread, hr⟩ := (Option.any_eq_true _ _).mp hread
    obtain rfl : r = [] := of_decide_eq_true hr
    obtain ⟨u, hu, hspells⟩ := spellsWord_of_readWord? hread
    rw [List.append_nil] at hu
    exact ⟨v, Or.inr (hu ▸ hspells)⟩

namespace Sheet

theorem Field.read? (field : Field) (above : Text) {e next : Text} (he : LineEnd e next) :
    ∃ v, Statement.read? above (field.name ++ (field.beforeSign ++
        '=' :: (field.afterSign ++ (field.value ++ (field.trail ++ e))))) =
      some (.assign [lineKey field.name above field.beforeSign]
        (.scalar v field.value (some ⟨field.afterSign, field.trail⟩)), next) := by
  obtain ⟨v, hwritten⟩ := exists_written field.value
  have hvalue := Expr.read?_written hwritten (Expr.exprEnd_trail field.trail.2 he)
  obtain ⟨c, u, hc, hhead⟩ := (show (Expr.scalar v field.value none).Sound 0 0 from hwritten).opening
  have hstops : Stops isSpace (field.value ++ (field.trail ++ e)) := by
    rw [show (field.value : Text) = c :: u from hc, List.cons_append, stops_cons]
    exact isSpace_of_not_isBlank (Expr.isExprHead_facts hhead).1.1
  have hbefore := takeWhile_run field.afterSign.2 hstops
  have hafter := dropWhile_run field.afterSign.2 hstops
  have hpath := readPathAfter?_field above field.name field.beforeSign
    (field.afterSign ++ (field.value ++ (field.trail ++ e)))
  have hname : ∀ t, (field.name : Text) ++ (field.beforeSign ++ '=' :: (field.afterSign ++
      (field.value ++ (field.trail ++ e)))) ≠ '[' :: t := by
    obtain ⟨d, w, hd, hw⟩ := (sound_bare field.name none none (by simp)).opening
    intro t ht
    rw [show (field.name : Text) = d :: w from hw, List.cons_append, List.cons.injEq] at ht
    exact (isKeyHead_facts hd).2 (by simp [ht.1])
  refine ⟨v, ?_⟩
  rw [Statement.read?.eq_3 _ _ (fun _ => hname _) hname, Statement.readAssign?, hpath]
  simp only [hbefore, hafter, hvalue, Statement.readLineEnd?_trail field.trail.2 he]
  rfl

theorem Section.read? (sec : Section) (above : Text) {e next : Text} (he : LineEnd e next) :
    Statement.read? above ('[' :: (sec.before ++ (Plan.networksKey ++
        '.' :: (sec.name ++ (sec.after ++ ']' :: (sec.trail ++ e)))))) =
      some (.header false [networksKey, lineKey sec.name sec.before sec.after] ⟨above, sec.trail⟩,
        next) := by
  have hpath := readPathAfter?_header sec.before sec.name sec.after (sec.trail ++ e)
  have hstops : Stops (fun c => decide (c = '[')) (sec.before ++ (Plan.networksKey ++
      '.' :: (sec.name ++ (sec.after ++ ']' :: (sec.trail ++ e))))) :=
    sec.before.2.stops_cons (by decide) (by decide) _
  have hnot : ∀ t, (sec.before : Text) ++ (Plan.networksKey ++
      '.' :: (sec.name ++ (sec.after ++ ']' :: (sec.trail ++ e)))) ≠ '[' :: t := by
    intro t ht
    rw [ht, stops_cons] at hstops
    cases hstops
  rw [Statement.read?.eq_2 _ _ hnot, Statement.readHeader?, hpath]
  simp only [Text.after?, Bool.false_eq_true, if_false, if_true,
    Statement.readLineEnd?_trail sec.trail.2 he]
  rfl

end Sheet

/-- Wherever the lines stand, they are read as statements like these. -/
def ReadsAs (lines : List Text) (P : List Statement → Prop) : Prop :=
  ∀ (more : List Text) (s : Text), Laid (lines ++ more) s → ∃ sts r, P sts ∧ Laid more r ∧
    Statement.readAll? s = (Statement.readAll? r).map fun rest => (sts ++ rest.1, rest.2)

theorem ReadsAs.imp {lines : List Text} {P Q : List Statement → Prop} (h : ReadsAs lines P)
    (himp : ∀ sts, P sts → Q sts) : ReadsAs lines Q := by
  intro more s hs
  obtain ⟨sts, r, hP, hr, hread⟩ := h more s hs
  exact ⟨sts, r, himp sts hP, hr, hread⟩

theorem ReadsAs.append {lines lines' : List Text} {P Q : List Statement → Prop}
    (h : ReadsAs lines P) (h' : ReadsAs lines' Q) :
    ReadsAs (lines ++ lines') fun sts => ∃ front back, P front ∧ Q back ∧ sts = front ++ back := by
  intro more s hs
  rw [List.append_assoc] at hs
  obtain ⟨front, t, hfront, ht, hread⟩ := h _ s hs
  obtain ⟨back, r, hback, hr, hread'⟩ := h' _ t ht
  refine ⟨front ++ back, r, ⟨front, back, hfront, hback, rfl⟩, hr, ?_⟩
  rw [hread, hread', Option.map_map]
  simp [Function.comp_def]

theorem readsAs_flatMap {α : Type} {lines : α → List Text} {P : α → List Statement → Prop}
    (h : ∀ a, ReadsAs (lines a) (P a)) (as : List α) : ReadsAs (as.flatMap lines) fun sts =>
      ∃ parts, List.Forall₂ P as parts ∧ sts = parts.flatten := by
  induction as with
  | nil =>
    intro more s hs
    exact ⟨[], s, ⟨[], .nil, rfl⟩, hs, by simp⟩
  | cons a as ih =>
    rw [List.flatMap_cons]
    refine ((h a).append ih).imp ?_
    rintro _ ⟨front, _, hfront, ⟨parts, hparts, rfl⟩, rfl⟩
    exact ⟨front :: parts, .cons hfront hparts, rfl⟩

/-- A statement on one line is read with the remarks above it. -/
theorem readsAs_statement (remarks : List Remark) (lead : Blanks) {core : Text}
    {P : Text → Statement → Prop} (hcore : ∃ c u, core = c :: u ∧ IsToken c)
    (hread : ∀ (above : Text) {e next : Text}, LineEnd e next →
      ∃ st, P above st ∧ Statement.read? above (core ++ e) = some (st, next)) :
    ReadsAs (remarks.map Subtype.val ++ [lead ++ core]) fun sts =>
      ∃ u st, Ended (remarks.map Subtype.val) u ∧ P (u ++ lead) st ∧ sts = [st] := by
  intro more s hs
  rw [List.append_assoc, List.singleton_append] at hs
  obtain ⟨u, v, rfl, hu, hv⟩ := hs.append_inv (by simp)
  obtain ⟨e, next, rfl, he, hnext⟩ := hv.cons_inv
  obtain ⟨st, hP, hst⟩ := hread (u ++ lead) he
  refine ⟨[st], next, ⟨u, st, hu, hP, rfl⟩, hnext, ?_⟩
  have hgap : Gap (u ++ lead) := (hu.gap (forall_trail remarks)).append lead.2.gap
  have hsplit : u ++ ((lead : Text) ++ core ++ e) = (u ++ lead) ++ (core ++ e) := by simp
  have hstart : afterGap ((u ++ (lead : Text)) ++ (core ++ e)) = core ++ e := by
    obtain ⟨c, w, rfl, hc⟩ := hcore
    rw [hgap.afterGap_append, List.cons_append, afterGap_token hc]
  have hne : core ++ e ≠ [] := by
    obtain ⟨c, w, rfl, -⟩ := hcore
    simp
  have hlength : next.length < ((u ++ (lead : Text)) ++ (core ++ e)).length := by
    obtain ⟨c, w, rfl, -⟩ := hcore
    have hle : next.length ≤ e.length := by
      rcases he with ⟨n, -, rfl⟩ | ⟨-, rfl⟩
      · simp
      · exact Nat.zero_le _
    simp only [List.length_append, List.length_cons]
    omega
  rw [hsplit, Statement.readAll?]
  simp only [hstart, hne, if_false, taken_append, hst, hlength, dif_pos]
  rfl

end DeploymentRecords
