import DeploymentRecords.DeploymentFile
import DeploymentRecords.Proofs.PhysicalLines
import DeploymentRecords.Proofs.SoundExpr

/-! # Sheets

The plain sort of deployment file, line by line: headers of networks, below each of them one field
with a string or a word on each line, and blank lines and remarks anywhere. Setting fields of one
network changes the values on their lines and adds lines for new fields below the last one; a
remark belongs to the line that it stands above. -/

namespace DeploymentRecords

open Text Toml

abbrev Blanks := {s : Text // Spaces s}

/-- The rest of a line, or all of it, that says nothing: blanks, and a remark behind them or not. -/
abbrev Remark := {s : Text // Trail s}

def noBlanks : Blanks := ⟨[], spaces_nil⟩

def oneBlank : Blanks := ⟨[' '], by decide⟩

def noRemark : Remark := ⟨[], spaces_nil.trail⟩

def remark (b : Blanks) (v : Text) (hv : v.all isPrintable = true) : Remark :=
  ⟨b ++ '#' :: v, b, '#' :: v, b.2, rfl, Or.inr ⟨v, rfl, List.all_eq_true.mp hv⟩⟩

theorem forall_trail (remarks : List Remark) : ∀ l ∈ remarks.map Subtype.val, Trail l :=
  List.forall_mem_map.mpr fun remark _ => remark.2

abbrev BareName := {s : Text // s ≠ [] ∧ s.all isBareKey = true}

def IsPlain (w : Text) : Prop :=
  '\n' ∉ w ∧ (((readString? w).any (·.2 = [])) = true ∨ ((readWord? w).any (·.2 = [])) = true)

instance : DecidablePred IsPlain := fun _ =>
  inferInstanceAs (Decidable (_ ∧ (_ ∨ _)))

abbrev PlainValue := {w : Text // IsPlain w}

theorem isPlain_quote {s : Text} (h : '\n' ∉ s) : IsPlain (quote s) := by
  have hread := readString?_quote stops_nil s
  rw [List.append_nil] at hread
  exact ⟨newline_not_mem_quote h, Or.inl (by rw [hread]; rfl)⟩

structure Setting where
  field : BareName
  value : Text
  oneLine : '\n' ∉ trim value

namespace Setting

def plain (x : Setting) : PlainValue := ⟨quote (trim x.value), isPlain_quote x.oneLine⟩

def pair (x : Setting) : Text × Text := (x.field, x.value)

def latest? (settings : List Setting) (field : BareName) : Option Setting :=
  settings.reverse.find? (·.field = field)

/-- The first setting of each field, in the order of the settings. -/
def firsts : List Setting → List Setting
  | [] => []
  | x :: settings => x :: (firsts settings).filter (·.field ≠ x.field)

variable {settings : List Setting} {x : Setting} {field : BareName}

theorem nodup_firsts (settings : List Setting) : ((firsts settings).map Setting.field).Nodup := by
  induction settings with
  | nil => exact List.nodup_nil
  | cons x settings ih =>
    rw [firsts, List.map_cons, List.nodup_cons]
    refine ⟨fun hm => ?_, (List.filter_sublist.map Setting.field).nodup ih⟩
    obtain ⟨y, hy, hfield⟩ := List.mem_map.mp hm
    exact of_decide_eq_true (List.mem_filter.mp hy).2 hfield

theorem mem_map_firsts : field ∈ (firsts settings).map Setting.field ↔
    field ∈ settings.map Setting.field := by
  induction settings with
  | nil => exact Iff.rfl
  | cons x settings ih =>
    rw [firsts, List.map_cons, List.map_cons, List.mem_cons, List.mem_cons, ← ih]
    by_cases hfield : field = x.field
    · simp [hfield]
    · simp only [hfield, false_or, List.mem_map, List.mem_filter, decide_eq_true_eq]
      constructor
      · rintro ⟨y, ⟨hy, -⟩, rfl⟩
        exact ⟨y, hy, rfl⟩
      · rintro ⟨y, hy, rfl⟩
        exact ⟨y, ⟨hy, hfield⟩, rfl⟩

/-- A setting that comes last is the first of its field only if no other is there. -/
theorem firsts_concat (settings : List Setting) (x : Setting) : firsts (settings ++ [x]) =
    firsts settings ++ if x.field ∈ settings.map Setting.field then [] else [x] := by
  induction settings with
  | nil => rfl
  | cons y settings ih =>
    rw [List.cons_append, firsts, ih, firsts, List.filter_append, List.cons_append, List.map_cons]
    by_cases hfield : x.field = y.field
    · split <;> simp [hfield]
    · by_cases hmem : x.field ∈ settings.map Setting.field
      · simp [hmem]
      · simp [hmem, hfield]

theorem latest?_concat (settings : List Setting) (x : Setting) (field : BareName) :
    latest? (settings ++ [x]) field = if x.field = field then some x else latest? settings field := by
  rw [latest?, List.reverse_append, List.reverse_singleton, List.singleton_append, List.find?_cons]
  by_cases h : x.field = field
  · simp [h]
  · simp [h, latest?]

end Setting

namespace Sheet

structure Field where
  remarks : List Remark
  lead : Blanks
  name : BareName
  beforeSign : Blanks
  afterSign : Blanks
  value : PlainValue
  trail : Remark

namespace Field

def line (field : Field) : Text :=
  field.lead ++ (field.name ++ (field.beforeSign ++
    '=' :: (field.afterSign ++ (field.value ++ field.trail))))

def lines (field : Field) : List Text := field.remarks.map Subtype.val ++ [field.line]

def ofSetting (x : Setting) : Field :=
  ⟨[], noBlanks, x.field, oneBlank, oneBlank, x.plain, noRemark⟩

def withValue (field : Field) (value : PlainValue) : Field := { field with value }

/-- The line with the last value for its field, if there is one. -/
def rewrite (settings : List Setting) (field : Field) : Field :=
  match Setting.latest? settings field.name with
  | some x => field.withValue x.plain
  | none => field

theorem name_rewrite (settings : List Setting) (field : Field) :
    (field.rewrite settings).name = field.name := by
  unfold rewrite
  split <;> rfl

end Field

structure Section where
  remarks : List Remark
  lead : Blanks
  before : Blanks
  name : BareName
  after : Blanks
  trail : Remark
  fields : List Field
  distinct : (fields.map Field.name).Nodup

namespace Section

variable {sec : Section} {settings : List Setting}

def header (sec : Section) : Text :=
  sec.lead ++ '[' :: (sec.before ++ (Plan.networksKey ++
    '.' :: (sec.name ++ (sec.after ++ ']' :: sec.trail))))

def lines (sec : Section) : List Text :=
  sec.remarks.map Subtype.val ++ [sec.header] ++ sec.fields.flatMap Field.lines

def added (sec : Section) (settings : List Setting) : List Field :=
  ((Setting.firsts settings).filter (·.field ∉ sec.fields.map Field.name)).map Field.ofSetting

theorem names_added (sec : Section) (settings : List Setting) :
    (sec.added settings).map Field.name = ((Setting.firsts settings).map Setting.field).filter
      (· ∉ sec.fields.map Field.name) := by
  rw [added, List.map_map, List.filter_map]
  rfl

theorem nodup_added (sec : Section) (settings : List Setting) :
    ((sec.fields ++ sec.added settings).map Field.name).Nodup := by
  rw [List.map_append, names_added, List.nodup_append]
  refine ⟨sec.distinct, List.filter_sublist.nodup (Setting.nodup_firsts settings), ?_⟩
  rintro name hname _ hadded rfl
  exact of_decide_eq_true (List.mem_filter.mp hadded).2 hname

theorem map_name_rewrite (settings : List Setting) (fields : List Field) :
    (fields.map (Field.rewrite settings)).map Field.name = fields.map Field.name := by
  rw [List.map_map]
  exact List.map_congr_left fun field _ => Field.name_rewrite settings field

/-- New values stand on the lines of their fields, or on new lines behind the last one. -/
def set (sec : Section) (settings : List Setting) : Section :=
  { sec with
    fields := (sec.fields ++ sec.added settings).map (Field.rewrite settings)
    distinct := by
      rw [map_name_rewrite]
      exact sec.nodup_added settings }

end Section

def Field.assign (x : Setting) (field : Field) : Field :=
  if field.name = x.field then field.withValue x.plain else field

theorem Field.withValue_rewrite (settings : List Setting) (field : Field) (v : PlainValue) :
    (field.rewrite settings).withValue v = field.withValue v := by
  unfold rewrite
  split <;> rfl

theorem Field.rewrite_concat (settings : List Setting) (x : Setting) (field : Field) :
    field.rewrite (settings ++ [x]) = (field.rewrite settings).assign x := by
  rw [assign, name_rewrite, withValue_rewrite, rewrite, Setting.latest?_concat]
  by_cases h : field.name = x.field
  · rw [if_pos h, if_pos h.symm]
  · rw [if_neg h, if_neg (Ne.symm h)]
    rfl

def put (x : Setting) (fields : List Field) : List Field :=
  fields.map (Field.assign x) ++ if x.field ∈ fields.map Field.name then [] else [Field.ofSetting x]

theorem Section.added_concat (sec : Section) (settings : List Setting) (x : Setting) :
    sec.added (settings ++ [x]) = sec.added settings ++
      if x.field ∈ settings.map Setting.field ∨ x.field ∈ sec.fields.map Field.name then []
      else [Field.ofSetting x] := by
  rw [added, Setting.firsts_concat, List.filter_append, List.map_append, ← added]
  congr 1
  by_cases hmem : x.field ∈ settings.map Setting.field
  · rw [if_pos hmem, if_pos (Or.inl hmem)]
    rfl
  · by_cases hname : x.field ∈ sec.fields.map Field.name
    · rw [if_neg hmem, if_pos (Or.inr hname),
        List.filter_cons, if_neg fun h => absurd hname (of_decide_eq_true h)]
      rfl
    · rw [if_neg hmem, if_neg (not_or.mpr ⟨hmem, hname⟩),
        List.filter_cons, if_pos (decide_eq_true hname)]
      rfl

theorem Section.fields_set_nil (sec : Section) : (sec.set []).fields = sec.fields := by
  have hfields : (sec.set []).fields = (sec.fields ++ []).map id := rfl
  rw [hfields, List.append_nil, List.map_id]

theorem Section.mem_names_set {sec : Section} {settings : List Setting} {name : BareName} :
    name ∈ (sec.set settings).fields.map Field.name ↔
      name ∈ settings.map Setting.field ∨ name ∈ sec.fields.map Field.name := by
  rw [set, map_name_rewrite, List.map_append, List.mem_append, names_added, List.mem_filter,
    Setting.mem_map_firsts, decide_eq_true_eq]
  by_cases hname : name ∈ sec.fields.map Field.name
  · exact iff_of_true (Or.inl hname) (Or.inr hname)
  · simp only [hname, false_or, not_false_iff, and_true, or_false]

/-- The last of several settings is one more setting. -/
theorem Section.fields_set_concat (sec : Section) (settings : List Setting) (x : Setting) :
    (sec.set (settings ++ [x])).fields = put x (sec.set settings).fields := by
  have hnew : (Field.ofSetting x).rewrite (settings ++ [x]) = Field.ofSetting x := by
    rw [Field.rewrite_concat, Field.assign, Field.name_rewrite, Field.withValue_rewrite,
      if_pos (show (Field.ofSetting x).name = x.field from rfl)]
    rfl
  have hold : (sec.fields ++ sec.added settings).map (Field.rewrite (settings ++ [x])) =
      (sec.set settings).fields.map (Field.assign x) := by
    rw [set, List.map_map]
    exact List.map_congr_left fun field _ => field.rewrite_concat settings x
  have hfields : (sec.set (settings ++ [x])).fields =
      (sec.fields ++ sec.added (settings ++ [x])).map (Field.rewrite (settings ++ [x])) := rfl
  rw [hfields, added_concat, ← List.append_assoc, List.map_append, hold, put]
  simp only [mem_names_set]
  split
  · rfl
  · rw [List.map_singleton, hnew]

end Sheet

/-- Sections of different networks, and the remarks below the last one. -/
structure Sheet where
  sections : List Sheet.Section
  remarks : List Remark
  distinct : (sections.map Sheet.Section.name).Nodup

namespace Sheet

def lines (sheet : Sheet) : List Text :=
  sheet.sections.flatMap Section.lines ++ sheet.remarks.map Subtype.val

def tidied (sheet : Sheet) : Text := sheet.lines.flatMap fun l => trimEnd l ++ ['\n']

theorem names_set (name : BareName) (settings : List Setting) (sections : List Section) :
    (sections.map fun sec => if sec.name = name then sec.set settings else sec).map Section.name =
      sections.map Section.name := by
  rw [List.map_map]
  refine List.map_congr_left fun sec _ => ?_
  rw [Function.comp_apply]
  split <;> rfl

def set (sheet : Sheet) (name : BareName) (settings : List Setting) : Sheet :=
  { sheet with
    sections := sheet.sections.map fun sec => if sec.name = name then sec.set settings else sec
    distinct := by
      rw [names_set]
      exact sheet.distinct }

end Sheet

end DeploymentRecords
