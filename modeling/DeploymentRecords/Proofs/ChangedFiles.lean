import DeploymentRecords.DeploymentFile
import DeploymentRecords.Proofs.Atoms
import DeploymentRecords.Proofs.Rereading
import DeploymentRecords.Records

/-! # Changed deployment files

What the text of a deployment file says after values were written into the table of a network. It
says something just if the document is ordered. Then the written values are read back, and every
other entry is kept if no atom of it changes when the ends of its lines are stripped. -/

namespace DeploymentRecords

open Toml

namespace Toml.Value

variable {names path : List Text} {u v w : Value}

theorem SameBut.of_same (h : SameBut names path u v) (h' : SameBut [] [] v w) :
    SameBut names path u w := by
  obtain ⟨-, hw, hfields⟩ := h'
  have hfields : ∀ name, w.field? name = v.field? name := fun name => hfields name List.not_mem_nil
  cases path with
  | nil =>
    obtain ⟨hu, -, hother⟩ := h
    exact ⟨hu, hw, fun name hname => (hfields name).trans (hother name hname)⟩
  | cons key path =>
    obtain ⟨hu, -, hother, u', v', hu', hv', hrest⟩ := h
    exact ⟨hu, hw, fun name hname => (hfields name).trans (hother name hname), u', v', hu',
      (hfields key).trans hv', hrest⟩

theorem Overwritten.of_same {fields : List (Text × Text)} (h : Overwritten fields path u v)
    (h' : SameBut [] [] v w) : Overwritten fields path u w := by
  obtain ⟨-, hw, hfields⟩ := h'
  have hfields : ∀ name, w.field? name = v.field? name := fun name => hfields name List.not_mem_nil
  cases path with
  | nil =>
    obtain ⟨hu, -, hwritten⟩ := h
    exact ⟨hu, hw, fun name => (hfields name).trans (hwritten name)⟩
  | cons key path =>
    obtain ⟨hu, -, hother, u', v', hu', hv', hrest⟩ := h
    exact ⟨hu, hw, fun name hname => (hfields name).trans (hother name hname), u', v', hu',
      (hfields key).trans hv', hrest⟩

theorem same_canonicalEntries (entries : List (Text × Value)) :
    SameBut [] [] (Value.table entries).canonical (.table (canonicalEntries entries)) := by
  refine ⟨⟨_, rfl⟩, ⟨_, rfl⟩, fun name _ => ?_⟩
  rw [canonical, field?_table, field?_table, lookup_sortEntries]

theorem written_eq {s : Text} (h : Tight s) : written s = string s := by
  rw [written, settled_quote h]

end Toml.Value

namespace Records

theorem deploymentsOf?_eq {s : Text} {doc : Document} (h : Document.read? s = some doc)
    (hboxes : Value.EntriesBoxless doc.entries) :
    deploymentsOf? s = some (Value.canonicalEntries doc.entries) := by
  rw [deploymentsOf?, h, Option.bind_some, Value.unboxedEntries?_eq _ hboxes]

/-- A document without boxes is read back from its text just if it is ordered, as what it means once
lines are stripped. -/
theorem deploymentsOf?_text {doc : Document} (hsound : doc.Sound)
    (hboxes : Value.EntriesBoxless (Member.settledEntries doc.root)) :
    Member.Yields doc.Ordered (deploymentsOf? (Text.tidy doc.text)) fun deployments =>
      Value.SameBut [] [] doc.settledValue.canonical (.table deployments) := by
  rcases Document.reread hsound with ⟨hordered, new, hread, hcanonical⟩ | ⟨hordered, hnone⟩
  · have hentries := (Value.entriesBoxless_congr hcanonical).mpr hboxes
    refine Or.inl ⟨hordered, _, deploymentsOf?_eq hread hentries, ?_⟩
    rw [← hcanonical]
    exact Value.same_canonicalEntries new.entries
  · exact Or.inr ⟨hordered, by rw [deploymentsOf?, hnone, Option.bind_none]⟩

/-- The section of a network is what the change of its table has made of it. -/
theorem section?_of_overwritten {records : Records} {network : Text} {fields : List (Text × Text)}
    {old : Value}
    (h : Value.Overwritten fields [Plan.networksKey, network] old (.table records.deployments)) :
    ∃ entries, records.section? network = some entries ∧ ∀ name s,
      fields.reverse.lookup name = some s → entries.lookup name = some (Value.written s) := by
  obtain ⟨-, -, -, _, _, -, hnetworks, hbelow⟩ := h
  obtain ⟨-, ⟨networks, rfl⟩, -, _, _, -, hnetwork, hbelow⟩ := hbelow
  obtain ⟨-, ⟨entries, rfl⟩, hfields⟩ := hbelow
  refine ⟨entries, ?_, fun name s hs => ?_⟩
  · rw [Value.field?_table] at hnetworks hnetwork
    simp only [section?, hnetworks, Option.bind_some, Value.asTable?, hnetwork]
  · have hname := hfields name
    rwa [hs, Value.field?_table, Option.map_some, Option.some_or] at hname

end Records

namespace DeploymentFile

variable {path : Files.Path} {s network : Text} {file file' : DeploymentFile}
  {values : List (Text × Text)} {written : List Written}

theorem read?_of_ofText (h : ofText path s = .ok file) : Document.read? s = some file.document := by
  unfold ofText at h
  split at h
  · next document hread =>
    obtain rfl := Except.ok.inj h
    exact hread
  · cases h

def writtenFields (values : List (Text × Text)) : List (Text × Text) :=
  (trimmed values).map fun w => (w.field, w.value)

theorem writtenFields_eq (values : List (Text × Text)) :
    writtenFields values = values.map fun (field, value) => (field, Text.trim value) := by
  simp [writtenFields, trimmed]

theorem map_fst_writtenFields (values : List (Text × Text)) :
    (writtenFields values).map Prod.fst = values.map Prod.fst := by
  simp [writtenFields_eq]

theorem update?_of_assign (h : file.assign network values = .ok (written, file')) :
    written = trimmed values ∧ file.document.update? Plan.networksKey [network]
      (writtenFields values) = some file'.document := by
  unfold assign at h
  dsimp only at h
  split at h
  · next document hupdate =>
    obtain ⟨rfl, rfl⟩ := Prod.mk.inj (Except.ok.inj h)
    exact ⟨rfl, hupdate⟩
  · cases h

theorem lookup_writtenFields {front back : List (Text × Text)} {field value : Text}
    (h : field ∉ back.map Prod.fst) :
    (writtenFields (front ++ (field, value) :: back)).reverse.lookup field =
      some (Text.trim value) := by
  have hback : (writtenFields back).reverse.lookup field = none :=
    Value.lookup_reverse_eq_none (by rwa [map_fst_writtenFields])
  rw [writtenFields_eq] at hback ⊢
  rw [List.map_append, List.map_cons, List.reverse_append, List.reverse_cons, List.lookup_append,
    List.lookup_append, hback]
  simp

/-- The text of a changed file says what its document says once lines are stripped, if the document
is ordered, else nothing. -/
theorem reread (hfile : ofText path s = .ok file) (hboxes : Value.EntriesBoxless file.document.entries)
    (hassign : file.assign network values = .ok (written, file'))
    (hfields : ∀ value ∈ values, value.1 ≠ Value.boxKey) :
    Member.Yields file'.document.Ordered (Records.deploymentsOf? file'.text) fun deployments =>
      Value.Overwritten (writtenFields values) [Plan.networksKey, network]
        file.document.settledValue.canonical (.table deployments) := by
  obtain ⟨-, hupdate⟩ := update?_of_assign hassign
  have hshort : [network].length + 2 < Key.maxPath := show 3 < Key.maxPath by decide
  have hsound := (Document.sound_of_read? (read?_of_ofText hfile)).update? hupdate hshort
  have hwritten : ∀ field ∈ writtenFields values, field.1 ≠ Value.boxKey := by
    rw [writtenFields_eq, List.forall_mem_map]
    exact hfields
  have hboxless := Document.update?_boxless hupdate hwritten hboxes
  have hover := (Document.update?_overwritten hupdate).canonical
  exact (Records.deploymentsOf?_text hsound hboxless).imp
    (fun ⟨hordered, deployments, hread, hsame⟩ => ⟨hordered, deployments, hread, hover.of_same hsame⟩) id

theorem exists_file (s : Text) (good : DeploymentFile → Bool)
    (h : ((Document.read? s).any fun document =>
      decide (Value.EntriesBoxless document.entries) && good ⟨[], document⟩) = true) :
    ∃ file, ofText [] s = .ok file ∧ Value.EntriesBoxless file.document.entries ∧ good file = true := by
  obtain ⟨document, hread, h⟩ := (Option.any_eq_true _ _).mp h
  rw [Bool.and_eq_true, decide_eq_true_eq] at h
  exact ⟨⟨[], document⟩, by rw [ofText, hread], h.1, h.2⟩

theorem exists_change (s network : Text) (values : List (Text × Text))
    (good : DeploymentFile → DeploymentFile → Bool)
    (h : ((Document.read? s).any fun document => decide (Value.EntriesBoxless document.entries) &&
      (document.update? Plan.networksKey [network] (writtenFields values)).any fun new =>
        good ⟨[], document⟩ ⟨[], new⟩) = true) :
    ∃ file file', ofText [] s = .ok file ∧ Value.EntriesBoxless file.document.entries ∧
      file.assign network values = .ok (trimmed values, file') ∧ good file file' = true := by
  obtain ⟨file, hfile, hboxes, h⟩ := exists_file s (fun file =>
    (file.document.update? Plan.networksKey [network] (writtenFields values)).any fun new =>
      good ⟨[], file.document⟩ ⟨[], new⟩) h
  obtain ⟨new, hupdate, h⟩ := (Option.any_eq_true _ _).mp h
  have hpath : file = ⟨[], file.document⟩ := by rw [← ofText_eq_ok hfile]
  refine ⟨file, ⟨[], new⟩, hfile, hboxes, ?_, hpath ▸ h⟩
  have hupdate : file.document.update? Plan.networksKey [network]
      ((trimmed values).map fun w => (w.field, w.value)) = some new := hupdate
  simp only [assign, hupdate, ofText_eq_ok hfile]

/-- The dotted keys are written under the last header, behind the header of a table below them. -/
def crossedText : Text :=
  "[deployment.anvil.x]\n[deployment]\nanvil.a.b = 1\n[deployment.anvil.a.q]\n[deployment.anvil]\n".toList

def looseText : Text := "[deployment.anvil]\nx = \"\"\"a \nb\"\"\"\n".toList

def plainText : Text := "[deployment]\nanvil.zkc = \"\"\"a\nb\"\"\" # first\nbase = [1, ' ']\n".toList

/-- Written values are read back from the text of the file just if its document is ordered. -/
theorem reads_back_iff_ordered (hfile : ofText path s = .ok file)
    (hboxes : Value.EntriesBoxless file.document.entries)
    (hassign : file.assign network values = .ok (written, file'))
    (hfields : ∀ value ∈ values, value.1 ≠ Value.boxKey)
    (htight : ∀ value ∈ values, Tight (Text.trim value.2)) :
    written = values.map (fun (field, value) => ⟨field, Text.trim value⟩) ∧
      ((∃ deployments, Records.deploymentsOf? file'.text = some deployments ∧
        ∀ records : Records, records.deployments = deployments →
          ∃ entries, records.section? network = some entries ∧
            ∀ front field value back, values = front ++ (field, value) :: back →
              field ∉ back.map Prod.fst →
                entries.lookup field = some (.string (Text.trim value))) ↔
        file'.document.Ordered) := by
  refine ⟨(update?_of_assign hassign).1, ?_⟩
  rcases reread hfile hboxes hassign hfields with ⟨hordered, deployments, hread, hover⟩ |
    ⟨hordered, hnone⟩
  · refine iff_of_true ⟨deployments, hread, ?_⟩ hordered
    rintro records rfl
    obtain ⟨entries, hsection, hlookup⟩ := Records.section?_of_overwritten hover
    refine ⟨entries, hsection, fun front field value back hsplit hlast => ?_⟩
    subst hsplit
    rw [hlookup field _ (lookup_writtenFields hlast), Value.written_eq (htight (field, value) (by simp))]
  · refine iff_of_false ?_ hordered
    rintro ⟨deployments, hread, -⟩
    rw [hnone] at hread
    cases hread

theorem reads_back_plainText : ∃ file file' written deployments, ofText [] plainText = .ok file ∧
    file.assign "anvil".toList [("admin".toList, "\"".toList), ("zkc".toList, "a\nb".toList),
      ("admin".toList, " 0x2 ".toList)] = .ok (written, file') ∧
    Records.deploymentsOf? file'.text = some deployments ∧
    ∀ records : Records, records.deployments = deployments →
      ∃ entries, records.section? "anvil".toList = some entries ∧
        entries.lookup "admin".toList = some (.string "0x2".toList) ∧
        entries.lookup "zkc".toList = some (.string "a\nb".toList) := by
  obtain ⟨file, file', hfile, hboxes, hassign, hordered⟩ := exists_change plainText "anvil".toList
    [("admin".toList, "\"".toList), ("zkc".toList, "a\nb".toList), ("admin".toList, " 0x2 ".toList)]
    (fun _ file' => decide file'.document.Ordered) (by decide +kernel)
  obtain ⟨deployments, hread, hsection⟩ := (reads_back_iff_ordered hfile hboxes hassign
    (by decide +kernel) (by decide +kernel)).2.mpr (of_decide_eq_true hordered)
  refine ⟨file, file', _, deployments, hfile, hassign, hread, fun records hrecords => ?_⟩
  obtain ⟨entries, hentries, hlookup⟩ := hsection records hrecords
  refine ⟨entries, hentries, ?_, ?_⟩
  · exact hlookup [_, _] "admin".toList " 0x2 ".toList [] rfl (by decide)
  · exact hlookup [_] "zkc".toList "a\nb".toList [_] rfl (by decide)

theorem crossedText_unreadable : ∃ file file' written, ofText [] crossedText = .ok file ∧
    Value.EntriesBoxless file.document.entries ∧
    file.assign "anvil".toList [("admin".toList, "0x2".toList)] = .ok (written, file') ∧
    Records.deploymentsOf? file'.text = none := by
  obtain ⟨file, file', hfile, hboxes, hassign, hnone⟩ := exists_change crossedText "anvil".toList
    [("admin".toList, "0x2".toList)] (fun _ file' => (Records.deploymentsOf? file'.text).isNone)
    (by decide +kernel)
  exact ⟨file, file', _, hfile, hboxes, hassign, Option.isNone_iff_eq_none.mp hnone⟩

/-- In an ordered document every entry that was not written has its value with the ends of its lines
stripped, which is its value just if its atoms are steady. -/
theorem kept_iff_steady (hfile : ofText path s = .ok file)
    (hboxes : Value.EntriesBoxless file.document.entries)
    (hassign : file.assign network values = .ok (written, file'))
    (hfields : ∀ value ∈ values, value.1 ≠ Value.boxKey) (hordered : file'.document.Ordered) :
    ∃ old new, Records.deploymentsOf? s = some old ∧ Records.deploymentsOf? file'.text = some new ∧
      Value.SameBut (values.map Prod.fst) [Plan.networksKey, network]
        file.document.settledValue.canonical (.table new) ∧
      (Value.SameBut (values.map Prod.fst) [Plan.networksKey, network] (.table old) (.table new) ↔
        ∀ atom ∈ file.document.atoms,
          ¬ atom.Among (values.map Prod.fst) [Plan.networksKey, network] → atom.Steady) := by
  have hdoc := read?_of_ofText hfile
  obtain ⟨-, hupdate⟩ := update?_of_assign hassign
  obtain ⟨⟨hi, hregular⟩, hsound, -⟩ := Document.sound_of_read? hdoc
  have hsame := Value.same_canonicalEntries file.document.entries
  rcases reread hfile hboxes hassign hfields with ⟨-, new, hread, hover⟩ | ⟨hunordered, -⟩
  · have hnew := hover.sameBut
    rw [map_fst_writtenFields] at hnew
    refine ⟨_, new, Records.deploymentsOf?_eq hdoc hboxes, hread, hnew, ?_⟩
    rw [← Document.sameBut_iff hupdate ⟨_, _, hregular⟩ hsound]
    constructor
    · intro hkept
      exact ((hnew.trans hkept.symm).of_same hsame.symm).symm
    · intro hkept
      exact ((hkept.trans hnew).symm.of_same hsame).symm
  · exact absurd hordered hunordered

theorem kept_plainText : ∃ file file' written old new, ofText [] plainText = .ok file ∧
    file.assign "anvil".toList [("admin".toList, "0x2".toList)] = .ok (written, file') ∧
    Records.deploymentsOf? plainText = some old ∧ Records.deploymentsOf? file'.text = some new ∧
    Value.SameBut ["admin".toList] [Plan.networksKey, "anvil".toList] (.table old) (.table new) := by
  obtain ⟨file, file', hfile, hboxes, hassign, hgood⟩ := exists_change plainText "anvil".toList
    [("admin".toList, "0x2".toList)] (fun file file' => decide (file'.document.Ordered ∧
      ∀ atom ∈ file.document.atoms,
        ¬ atom.Among ["admin".toList] [Plan.networksKey, "anvil".toList] → atom.Steady))
    (by decide +kernel)
  obtain ⟨hordered, hsteady⟩ := of_decide_eq_true hgood
  obtain ⟨old, new, hold, hnew, -, hsame⟩ := kept_iff_steady hfile hboxes hassign
    (by decide) hordered
  exact ⟨file, file', _, old, new, hfile, hassign, hold, hnew, hsame.mpr hsteady⟩

theorem untouched_lost : (∃ file file' old new, ofText [] looseText = .ok file ∧
      Value.EntriesBoxless file.document.entries ∧
      file.assign "anvil".toList [] = .ok ([], file') ∧
      Records.deploymentsOf? looseText = some old ∧ Records.deploymentsOf? file'.text = some new ∧
      ¬ Value.SameBut [] [Plan.networksKey, "anvil".toList] (.table old) (.table new)) ∧
    ∃ file file', ofText [] crossedText = .ok file ∧ Value.EntriesBoxless file.document.entries ∧
      file.assign "anvil".toList [] = .ok ([], file') ∧ Records.deploymentsOf? file'.text = none := by
  constructor
  · let x (deployments : List (Text × Value)) : Option Text :=
      ((Value.table deployments).at? [Plan.networksKey, "anvil".toList, "x".toList]).bind Value.asString?
    obtain ⟨file, file', hfile, hboxes, hassign, hgood⟩ := exists_change looseText "anvil".toList []
      (fun _ file' => (Records.deploymentsOf? looseText).any fun old =>
        (Records.deploymentsOf? file'.text).any fun new => x old ≠ x new) (by decide +kernel)
    obtain ⟨old, hold, hgood⟩ := (Option.any_eq_true _ _).mp hgood
    obtain ⟨new, hnew, hgood⟩ := (Option.any_eq_true _ _).mp hgood
    refine ⟨file, file', old, new, hfile, hboxes, hassign, hold, hnew, fun hsame => ?_⟩
    have hx : (Value.table new).at? [Plan.networksKey, "anvil".toList, "x".toList] =
        (Value.table old).at? [Plan.networksKey, "anvil".toList, "x".toList] :=
      hsame.at? List.not_mem_nil
    exact of_decide_eq_true hgood (congrArg (·.bind Value.asString?) hx.symm)
  · obtain ⟨file, file', hfile, hboxes, hassign, hnone⟩ := exists_change crossedText "anvil".toList []
      (fun _ file' => (Records.deploymentsOf? file'.text).isNone) (by decide +kernel)
    exact ⟨file, file', hfile, hboxes, hassign, Option.isNone_iff_eq_none.mp hnone⟩

end DeploymentFile

end DeploymentRecords
