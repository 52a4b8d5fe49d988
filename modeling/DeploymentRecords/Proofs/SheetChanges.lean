import DeploymentRecords.Proofs.ChangedFiles
import DeploymentRecords.Proofs.SheetTree
import Mathlib.Data.List.Induction

/-! # Changed sheets

Setting fields of one network of a sheet changes the values on their lines and adds a line for each
new field below the last line of its section. Every other line is kept, remarks, blanks and trailing
remarks included, but for white space at its end. -/

namespace DeploymentRecords

open Text Toml Sorting

namespace Sheet

variable {sheet : Sheet} {doc : Document} {fields : List Field} {sections : List Section}
  {entries sub : Entries} {n : Nat} {key : Key} {around : Surround}

theorem Field.Drawn.ended {field : Field} {entry : Key × Member} (h : field.Drawn entry) :
    Ended field.lines ((assigns [entry]).flatMap Statement.text) := by
  obtain ⟨u, hu, houter⟩ := h.around
  obtain ⟨v, around, hvalue, haround⟩ := h.value
  obtain ⟨key, member⟩ := entry
  subst hvalue
  have hpath : Key.pathText Statement.newKey [key] =
      u ++ (field.lead ++ (field.name ++ field.beforeSign)) := by
    have houter : ([key].getLast?.bind Key.outer).getD Statement.newKey =
        ⟨u ++ field.lead, field.beforeSign⟩ := houter
    have hspelling : key.spelling = field.name := h.spelling
    simp only [Key.pathText, houter, Key.joined, hspelling, List.append_assoc]
  have htext : (assigns [(key, .expr (.scalar v field.value around))]).flatMap Statement.text =
      u ++ (field.line ++ ['\n']) := by
    have hassigns : assigns [(key, .expr (.scalar v field.value around))] =
      [.assign [key] (.scalar v field.value around)] := rfl
    simp [hassigns, Statement.text, hpath, Expr.text, haround, Field.line]
  rw [htext]
  exact hu.append (ended_line field.line)

theorem ended_assigns (h : List.Forall₂ Field.Drawn fields entries) :
    Ended (fields.flatMap Field.lines) ((assigns entries).flatMap Statement.text) := by
  induction h with
  | nil => exact .nil
  | @cons field entry fields entries hfield _ ih =>
    have hassigns : assigns (entry :: entries) = assigns [entry] ++ assigns entries := by
      simp [assigns, Member.entriesBody]
    rw [List.flatMap_cons, hassigns, List.flatMap_append]
    exact hfield.ended.append ih

theorem Section.Drawn.ended {sec : Section} (h : sec.Drawn key around entries) :
    Ended sec.lines ((tableStatements key around entries).flatMap Statement.text) := by
  obtain ⟨u, hu, rfl⟩ := h.around
  have hpath : Key.pathText Expr.bare [networksKey, key] =
      sec.before ++ (Plan.networksKey ++ '.' :: (sec.name ++ sec.after)) := by
    have houter : ([networksKey, key].getLast?.bind Key.outer).getD Expr.bare =
        ⟨sec.before, sec.after⟩ := h.outer
    have hafter : networksKey.after = [] := rfl
    have hspelling : networksKey.spelling = Plan.networksKey := rfl
    simp only [Key.pathText, houter, Key.joined, h.spelling, h.before, hafter, hspelling,
      List.nil_append, List.append_assoc, List.cons_append]
  have htext : (tableStatements key ⟨u ++ sec.lead, sec.trail⟩ entries).flatMap Statement.text =
      u ++ (sec.header ++ ['\n']) ++ (assigns entries).flatMap Statement.text := by
    simp [tableStatements, Statement.text, hpath, Section.header]
  rw [htext]
  exact (hu.append (ended_line sec.header)).append (ended_assigns h.fields)

theorem entriesBlocks_fields (h : List.Forall₂ Field.Drawn fields entries) (path : List Key) :
    Member.entriesBlocks path entries = [] := by
  induction h with
  | nil => rfl
  | cons hfield _ ih =>
    obtain ⟨v, around, hvalue, -⟩ := hfield.value
    rw [Member.entriesBlocks, hvalue, ih]
    rfl

def tableBlock (key : Key) (heading : Heading) (entries : Entries) : Member.Block :=
  ⟨false, [networksKey, key], some heading, Member.entriesBody [] entries⟩

theorem entriesBlocks_cons {sec : Section} {heading : Heading} (h : sec.Drawn key around sub) :
    Member.entriesBlocks [networksKey] ((key, .table (.headed heading) sub) :: entries) =
      tableBlock key heading sub :: Member.entriesBlocks [networksKey] entries := by
  rw [Member.entriesBlocks, Member.blocks, entriesBlocks_fields h.fields]
  rfl

theorem Drawn.inOrder (h : Drawn n sections entries) (last : Nat) :
    InOrder (Document.positioned last (Member.entriesBlocks [networksKey] entries)) ∧
      ∀ u ∈ Document.positioned last (Member.entriesBlocks [networksKey] entries), n < u.1 := by
  induction h generalizing last with
  | nil => exact ⟨.nil, by simp [Member.entriesBlocks, Document.positioned]⟩
  | @cons n sec key around sub entries sections hsec _ ih =>
    obtain ⟨horder, hlow⟩ := ih (n + 1)
    rw [entriesBlocks_cons hsec]
    have hpositioned : Document.positioned last (tableBlock key ⟨around, n + 1⟩ sub ::
        Member.entriesBlocks [networksKey] entries) = (n + 1, tableBlock key ⟨around, n + 1⟩ sub) ::
          Document.positioned (n + 1) (Member.entriesBlocks [networksKey] entries) := rfl
    rw [hpositioned]
    refine ⟨List.pairwise_cons.mpr ⟨fun u hu => Nat.le_of_lt (hlow u hu), horder⟩, ?_⟩
    rw [List.forall_mem_cons]
    exact ⟨Nat.lt_succ_self n, fun u hu => Nat.lt_of_succ_lt (hlow u hu)⟩

theorem map_positioned (last : Nat) (blocks : List Member.Block) :
    (Document.positioned last blocks).map (·.2) = blocks := by
  induction blocks generalizing last with
  | nil => rfl
  | cons block blocks ih => rw [Document.positioned, List.map_cons, ih]

theorem Drawn.ended (h : Drawn n sections entries) (first : Bool) :
    Ended (sections.flatMap Section.lines) ((Document.blockStatements first
      (Member.entriesBlocks [networksKey] entries)).flatMap Statement.text) := by
  induction h generalizing first with
  | nil => exact .nil
  | @cons n sec key around sub entries sections hsec _ ih =>
    have hstatements : Document.blockStatements first (tableBlock key ⟨around, n + 1⟩ sub ::
        Member.entriesBlocks [networksKey] entries) = tableStatements key around sub ++
          Document.blockStatements false (Member.entriesBlocks [networksKey] entries) := rfl
    rw [entriesBlocks_cons hsec, hstatements, List.flatMap_append, List.flatMap_cons]
    exact hsec.ended.append (ih false)

theorem Drawn.entriesBody_eq_nil (h : Drawn n sections entries) : Member.entriesBody [] entries = [] := by
  induction h with
  | nil => rfl
  | cons _ _ ih => rw [Member.entriesBody, ih]; rfl

/-- What is written for a document that draws a sheet is laid out in the lines of the sheet. -/
theorem Draws.laid (h : sheet.Draws doc) : Laid sheet.lines doc.text := by
  obtain ⟨⟨entries, hroot, hdrawn⟩, htrail⟩ := h
  have hblocks : Member.entriesBlocks [] doc.root = ⟨false, [networksKey], none, []⟩ ::
      Member.entriesBlocks [networksKey] entries := by
    rw [hroot, rootOf, Member.entriesBlocks, Member.blocks, hdrawn.entriesBody_eq_nil]
    simp [Member.entriesBlocks]
  have hordered : Document.ordered doc.root = ⟨false, [networksKey], none, []⟩ ::
      Member.entriesBlocks [networksKey] entries := by
    have horder : InOrder (Document.positioned 0 (Member.entriesBlocks [] doc.root)) := by
      rw [hblocks]
      exact List.pairwise_cons.mpr ⟨fun u _ => Nat.zero_le _, (hdrawn.inOrder 0).1⟩
    show (byPosition (Document.positioned 0 (Member.entriesBlocks [] doc.root))).map (·.2) = _
    rw [byPosition_eq horder, map_positioned, hblocks]
  have hstatements : doc.statements =
      Document.blockStatements true (Member.entriesBlocks [networksKey] entries) := by
    have hbody : Member.entriesBody [] doc.root = [] := by rw [hroot]; rfl
    rw [Document.statements, hordered]
    simp only [hbody, List.map_nil, List.nil_append, List.isEmpty_nil]
    rfl
  rw [Document.text, hstatements]
  exact (hdrawn.ended true).laid htrail

/-- A string that takes the place of a value hands on what surrounds it. -/
theorem drawn_replace {x : Setting} {old : Member} (h : List.Forall₂ Field.Drawn fields entries)
    (hold : ∀ entry ∈ entries, entry.1.name = x.field → entry.2 = old) :
    List.Forall₂ Field.Drawn (fields.map (Field.assign x))
      (entries.replace x.field (.expr (.string (trim x.value) old.around))) := by
  induction h with
  | nil => exact .nil
  | @cons field entry fields entries hfield _ ih =>
    obtain ⟨hentry, hentries⟩ := List.forall_mem_cons.mp hold
    rw [List.map_cons, Entries.replace_cons]
    refine .cons ?_ (ih hentries)
    by_cases hname : field.name = x.field
    · obtain ⟨v, around, hvalue, haround⟩ := hfield.value
      have hkey : entry.1.name = x.field := by rw [hfield.name, hname]
      have hold : old.around = around := by rw [← hentry hkey, hvalue]; rfl
      rw [Field.assign, if_pos hname, if_pos hkey]
      exact ⟨hfield.name, hfield.spelling, hfield.around, _, around, by rw [hold]; rfl, haround⟩
    · have hkey : entry.1.name ≠ x.field := by
        rw [hfield.name]
        exact fun e => hname (Subtype.ext e)
      rw [Field.assign, if_neg hname, if_neg hkey]
      exact hfield

/-- The line of a new field is what the printer makes of an entry that leaves all to it. -/
theorem drawn_ofSetting (x : Setting) : (Field.ofSetting x).Drawn
    (Key.new x.field, .expr (.string (trim x.value) none)) := by
  have hquote : Key.quote x.field = x.field :=
    if_pos x.field.2
  exact ⟨rfl, hquote, ⟨[], .nil, rfl⟩, _, none, rfl, rfl⟩

theorem mem_names_of_drawn {name : BareName} (h : List.Forall₂ Field.Drawn fields entries) :
    (name : Text) ∈ names entries ↔ name ∈ fields.map Field.name := by
  rw [names_of_fields h, List.mem_map, List.mem_map]
  simp only [Subtype.val_inj]

theorem drawn_put (x : Setting) (h : List.Forall₂ Field.Drawn fields entries)
    (hnodup : (names entries).Nodup) :
    List.Forall₂ Field.Drawn (put x fields) (entries.set x.field (trim x.value)) := by
  have hput : put x fields = fields.map (Field.assign x) ++
    if x.field ∈ fields.map Field.name then [] else [Field.ofSetting x] := rfl
  rw [Entries.set]
  cases hget : entries.get? x.field with
  | none =>
    have hfresh := Entries.get?_eq_none_iff.mp hget
    have hname := mt (mem_names_of_drawn h).mpr hfresh
    have hkept : fields.map (Field.assign x) = fields := by
      have hother : ∀ field ∈ fields, field.assign x = id field := fun field hfield =>
        if_neg fun e : field.name = x.field => hname (e ▸ List.mem_map_of_mem hfield)
      rw [List.map_congr_left hother, List.map_id]
    rw [hput, if_neg hname, hkept]
    exact List.rel_append h (.cons (drawn_ofSetting x) .nil)
  | some old =>
    obtain ⟨key, hmem, hkey⟩ := Entries.exists_mem_of_get? hget
    have hname : x.field ∈ fields.map Field.name :=
      (mem_names_of_drawn h).mp (mem_names.mpr ⟨_, hmem, hkey⟩)
    rw [hput, if_pos hname, List.append_nil]
    refine drawn_replace h fun entry hentry hname => ?_
    rw [eq_of_name_eq hnodup hentry hmem (hname.trans hkey.symm)]

/-- A table that stands for a section stands for it with the settings once they are written. -/
theorem Section.Drawn.set {sec : Section} (h : sec.Drawn key around entries) (kind : TableKind)
    (settings : List Setting) : ∃ new, Member.update?
      (DeploymentFile.writtenFields (settings.map Setting.pair)) [] (.table kind entries) =
        some (.table kind new) ∧ (sec.set settings).Drawn key around new := by
  -- from the end: each setting acts on the table that the ones before it have left
  induction settings using List.reverseRecOn with
  | nil =>
    refine ⟨entries, rfl, h.name, h.spelling, h.before, h.outer, h.around, ?_⟩
    rw [Section.fields_set_nil]
    exact h.fields
  | append_singleton settings x ih =>
    obtain ⟨new, hnew, hdrawn⟩ := ih
    refine ⟨Entries.set new x.field (trim x.value), ?_, ?_⟩
    · have hwritten : DeploymentFile.writtenFields ((settings ++ [x]).map Setting.pair) =
          DeploymentFile.writtenFields (settings.map Setting.pair) ++
            [((x.field : Text), trim x.value)] := by
        simp [DeploymentFile.writtenFields, DeploymentFile.trimmed, Setting.pair]
      rw [Member.update?, Option.some_inj, Member.table.injEq] at hnew
      rw [hwritten, Member.update?, List.foldl_append, hnew.2]
      rfl
    · refine ⟨hdrawn.name, hdrawn.spelling, hdrawn.before, hdrawn.outer, hdrawn.around, ?_⟩
      rw [Section.fields_set_concat]
      exact drawn_put x hdrawn.fields hdrawn.nodup

theorem Drawn.set {name : BareName} (h : Drawn n sections entries)
    (hdistinct : (sections.map Section.name).Nodup) (hname : name ∈ sections.map Section.name)
    (settings : List Setting) : ∃ old new, entries.get? name = some old ∧ Member.update?
      (DeploymentFile.writtenFields (settings.map Setting.pair)) [] old = some new ∧
        Drawn n (sections.map fun sec => if sec.name = name then sec.set settings else sec)
          (entries.replace name new) := by
  induction h with
  | nil => cases hname
  | @cons n sec key around sub entries sections hsec hrest ih =>
    obtain ⟨hhead, hdistinct⟩ := List.nodup_cons.mp hdistinct
    rw [Entries.get?_cons, List.map_cons]
    by_cases heq : sec.name = name
    · -- the other sections have other names, so neither they nor their tables change
      subst heq
      obtain ⟨new, hnew, hdrawn⟩ := hsec.set (.headed ⟨around, n + 1⟩) settings
      refine ⟨_, _, if_pos hsec.name, hnew, ?_⟩
      have hfresh : (sec.name : Text) ∉ names entries := by
        rw [names_of_drawn hrest]
        exact fun hm => hhead (by simpa [Subtype.val_inj] using hm)
      have hother : ∀ other ∈ sections,
          (if other.name = sec.name then other.set settings else other) = id other := fun other hm =>
        if_neg fun e : other.name = sec.name => hhead (e ▸ List.mem_map_of_mem hm)
      rw [if_pos rfl, Entries.replace_cons, if_pos hsec.name, Entries.replace, replace_fresh hfresh,
        List.map_congr_left hother, List.map_id]
      exact .cons hdrawn hrest
    · have hkey : key.name ≠ name := fun e => heq (Subtype.ext (hsec.name.symm.trans e))
      obtain ⟨old, new, hold, hnew, hdrawn⟩ := ih hdistinct
        ((List.mem_cons.mp hname).resolve_left (Ne.symm heq))
      refine ⟨old, new, by rw [if_neg hkey, hold], hnew, ?_⟩
      rw [if_neg heq, Entries.replace_cons, if_neg hkey]
      exact .cons hsec hdrawn

theorem Draws.set {name : BareName} (h : sheet.Draws doc)
    (hname : name ∈ sheet.sections.map Section.name) (settings : List Setting) :
    ∃ new, doc.update? Plan.networksKey [name]
      (DeploymentFile.writtenFields (settings.map Setting.pair)) = some new ∧
        (sheet.set name settings).Draws new := by
  obtain ⟨⟨entries, hroot, hdrawn⟩, htrail⟩ := h
  obtain ⟨old, new, hold, hnew, hdrawn⟩ := hdrawn.set sheet.distinct hname settings
  refine ⟨⟨rootOf (entries.replace name new), doc.trail⟩, ?_, ⟨_, rfl, hdrawn⟩, htrail⟩
  have hget : doc.root.get? Plan.networksKey = some (.table .implied entries) := by rw [hroot]; rfl
  have hreplace : ∀ member, doc.root.replace Plan.networksKey member = [(networksKey, member)] :=
    fun member => by rw [hroot]; rfl
  rw [Document.update?, hget]
  simp only [Member.update?, hold, hnew, Option.map_some, hreplace]
  rfl

theorem newline_not_mem_name (name : BareName) : '\n' ∉ (name : Text) :=
  fun hm => absurd (List.all_eq_true.mp name.2.2 _ hm) (by decide)

theorem Field.oneLine (field : Field) : '\n' ∉ field.line := by
  simp only [line, List.mem_append, List.mem_cons, not_or]
  exact ⟨field.lead.2.newline_not_mem, newline_not_mem_name field.name,
    field.beforeSign.2.newline_not_mem, by decide, field.afterSign.2.newline_not_mem,
    field.value.2.1, field.trail.2.newline_not_mem⟩

theorem Section.oneLine (sec : Section) : '\n' ∉ sec.header := by
  simp only [header, List.mem_append, List.mem_cons, not_or]
  exact ⟨sec.lead.2.newline_not_mem, by decide, sec.before.2.newline_not_mem, by decide, by decide,
    newline_not_mem_name sec.name, sec.after.2.newline_not_mem, by decide, sec.trail.2.newline_not_mem⟩

theorem newline_not_mem_remarks (remarks : List Remark) : ∀ l ∈ remarks.map Subtype.val, '\n' ∉ l :=
  fun l hl => (forall_trail remarks l hl).newline_not_mem

theorem Field.newline_not_mem_lines (field : Field) : ∀ l ∈ field.lines, '\n' ∉ l :=
  List.forall_mem_append.mpr ⟨newline_not_mem_remarks field.remarks,
    List.forall_mem_singleton.mpr field.oneLine⟩

theorem Section.newline_not_mem_lines (sec : Section) : ∀ l ∈ sec.lines, '\n' ∉ l := by
  refine List.forall_mem_append.mpr ⟨List.forall_mem_append.mpr
    ⟨newline_not_mem_remarks sec.remarks, List.forall_mem_singleton.mpr sec.oneLine⟩, fun l hl => ?_⟩
  obtain ⟨field, _, hl⟩ := List.mem_flatMap.mp hl
  exact field.newline_not_mem_lines l hl

theorem newline_not_mem_lines (sheet : Sheet) : ∀ l ∈ sheet.lines, '\n' ∉ l := by
  refine List.forall_mem_append.mpr ⟨fun l hl => ?_, newline_not_mem_remarks sheet.remarks⟩
  obtain ⟨sec, _, hl⟩ := List.mem_flatMap.mp hl
  exact sec.newline_not_mem_lines l hl

theorem lines_ne_nil (hsections : sheet.sections ≠ []) : sheet.lines ≠ [] := by
  obtain ⟨sec, sections, hcons⟩ := List.exists_cons_of_ne_nil hsections
  simp [lines, hcons, Section.lines]

theorem Draws.text (h : sheet.Draws doc) (hsections : sheet.sections ≠ []) :
    Text.tidy doc.text = sheet.tidied :=
  h.laid.tidy (lines_ne_nil hsections) sheet.newline_not_mem_lines

end Sheet

namespace DeploymentFile

/-- The text of a sheet can be changed, and what is written is the sheet with its fields set. -/
theorem assign_sheet (sheet : Sheet) {s : Text} (h : Laid sheet.lines s) {sec : Sheet.Section}
    (hsec : sec ∈ sheet.sections) (settings : List Setting) (path : Files.Path) :
    ∃ file new, ofText path s = .ok file ∧ file.assign sec.name (settings.map Setting.pair) =
        .ok (settings.map fun x => ⟨x.field, trim x.value⟩, new) ∧
      new.text = (sheet.set sec.name settings).tidied := by
  obtain ⟨doc, hread, hdraws⟩ := sheet.exists_drawn (List.ne_nil_of_mem hsec) h
  obtain ⟨new, hnew, hset⟩ := hdraws.set (List.mem_map_of_mem hsec) settings
  have hwritten : trimmed (settings.map Setting.pair) =
      settings.map fun x => ⟨x.field, trim x.value⟩ := by
    simp [trimmed, Setting.pair]
  have hsections : (sheet.set sec.name settings).sections ≠ [] := by
    simpa [Sheet.set] using List.ne_nil_of_mem hsec
  refine ⟨⟨path, doc⟩, ⟨path, new⟩, by rw [ofText, hread], ?_, hset.text hsections⟩
  have hupdate : doc.update? Plan.networksKey [sec.name]
      ((trimmed (settings.map Setting.pair)).map fun w => (w.field, w.value)) = some new := hnew
  rw [← hwritten]
  simp only [assign, hupdate]

def mixedText : Text :=
  ("# all\r\n[ deployment.anvil ] # local\n\tadmin= \"0x1\" # owner \r\nport =1\n\n" ++
    "[deployment.sepolia]\nadmin = '0x2'").toList

def mixedSheet : Sheet where
  sections :=
    [{  remarks := [remark noBlanks " all".toList (by decide)]
        lead := noBlanks
        before := oneBlank
        name := ⟨"anvil".toList, by decide⟩
        after := oneBlank
        trail := remark oneBlank " local".toList (by decide)
        fields :=
          [⟨[], ⟨['\t'], by decide⟩, ⟨"admin".toList, by decide⟩, noBlanks, oneBlank,
              ⟨"\"0x1\"".toList, by decide +kernel⟩, remark oneBlank " owner ".toList (by decide)⟩,
           ⟨[], noBlanks, ⟨"port".toList, by decide⟩, oneBlank, noBlanks,
              ⟨"1".toList, by decide +kernel⟩, noRemark⟩]
        distinct := by decide },
     {  remarks := [noRemark]
        lead := noBlanks
        before := noBlanks
        name := ⟨"sepolia".toList, by decide⟩
        after := noBlanks
        trail := noRemark
        fields :=
          [⟨[], noBlanks, ⟨"admin".toList, by decide⟩, oneBlank, oneBlank,
              ⟨"'0x2'".toList, by decide +kernel⟩, noRemark⟩]
        distinct := by decide }]
  remarks := []
  distinct := by decide

def mixedSettings : List Setting :=
  [⟨⟨"zkc".toList, by decide⟩, "0x4".toList, by decide⟩,
   ⟨⟨"admin".toList, by decide⟩, " 0x3 ".toList, by decide⟩,
   ⟨⟨"zkc".toList, by decide⟩, "0x5\n".toList, by decide⟩]

theorem laid_mixedSheet : Laid mixedSheet.lines mixedText := by
  have hreturn : IsNewline ['\r', '\n'] := Or.inr rfl
  have hfeed : IsNewline ['\n'] := Or.inl rfl
  exact .line hreturn (.line hfeed (.line hreturn (.line hfeed (.line hfeed (.line hfeed
    (.last (by decide)))))))

theorem assign_mixedSheet : ∃ file new, ofText [] mixedText = .ok file ∧
    file.assign "anvil".toList (mixedSettings.map Setting.pair) = .ok (mixedSettings.map fun x =>
      ⟨x.field, trim x.value⟩, new) ∧
    new.text = ("# all\n[ deployment.anvil ] # local\n\tadmin= \"0x3\" # owner\nport =1\n" ++
      "zkc = \"0x5\"\n\n[deployment.sepolia]\nadmin = '0x2'\n").toList := by
  obtain ⟨file, new, hfile, hassign, htext⟩ := assign_sheet mixedSheet laid_mixedSheet
    List.mem_cons_self mixedSettings []
  exact ⟨file, new, hfile, hassign, htext.trans (by decide +kernel)⟩

end DeploymentFile

end DeploymentRecords
