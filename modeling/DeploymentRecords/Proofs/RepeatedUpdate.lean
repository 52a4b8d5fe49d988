import DeploymentRecords.Proofs.ChangedFiles
import DeploymentRecords.Proofs.RepeatedEdit
import DeploymentRecords.Proofs.UpdateCommand

/-! # Repeated updates

An update that is made once more finds its own text. It is refused only where that text is none that
can be read, and otherwise writes what is written for the document that is read from it: the same text,
where that spells its keys uniformly. -/

namespace DeploymentRecords.DeploymentFile

open Files Toml

variable {tree new : Tree} {path : Path} {network : Text} {values : List (Text × Text)}
  {written : List Written} {file edited : DeploymentFile}

/-- The steps of an update that was completed. -/
theorem update_eq_ok : update tree path network values = .ok (written, new) ↔
    ∃ content file edited, tree.read path = .ok content ∧ ofText path content = .ok file ∧
      file.assign network values = .ok (written, edited) ∧ tree.write path edited.text = .ok new := by
  constructor
  · intro h
    have hprogress := progress_update tree path network values
    rw [h] at hprogress
    cases hprogress with
    | @written content file edited _ hread hfile hassign hwrite =>
      exact ⟨content, file, edited, hread, hfile, hassign, hwrite⟩
  · rintro ⟨content, file, edited, hread, hfile, hassign, hwrite⟩
    have hpath : edited.path = path := (assign_eq_ok hassign).2.trans (ofText_eq_ok hfile)
    unfold update load
    simp only [hread, hfile]
    show (file.assign network values).bind _ = _
    rw [hassign]
    show (edited.save tree).bind _ = _
    rw [save, hpath, hwrite]
    rfl

theorem ofText_of_read? {s : Text} {document : Document} (h : Document.read? s = some document) :
    ofText path s = .ok ⟨path, document⟩ := by
  rw [ofText, h]

theorem assign_of_update? {document : Document} (h : file.document.update? Plan.networksKey [network]
    (writtenFields values) = some document) :
    file.assign network values = .ok (trimmed values, { file with document }) := by
  have h : file.document.update? Plan.networksKey [network]
      ((trimmed values).map fun w => (w.field, w.value)) = some document := h
  simp only [assign, h]

/-- An update that was made can be made once more just if the document it left is ordered, and reports
the same values. It leaves every file as it is just if the text of the file is written for the document
that is read from it, as uniform texts are. -/
theorem update_again (h : update tree path network values = .ok (written, new)) :
    ∃ content file edited, tree.read path = .ok content ∧ ofText path content = .ok file ∧
      file.assign network values = .ok (written, edited) ∧ new.read path = .ok edited.text ∧
      ((∃ result, update new path network values = .ok result) ↔ edited.document.Ordered) ∧
      (∀ result, update new path network values = .ok result → result.1 = written) ∧
      (update new path network values = .ok (written, new) ↔ Reprints edited.text) ∧
      (Uniform edited.text → Reprints edited.text) := by
  obtain ⟨content, file, edited, hread, hfile, hassign, hwrite⟩ := update_eq_ok.mp h
  obtain ⟨rfl, hupdate⟩ := update?_of_assign hassign
  have hsound := (Document.sound_of_read? (read?_of_ofText hfile)).update? hupdate
    (show 3 < Key.maxPath by decide)
  have hsaved := Tree.read_write hread hwrite
  -- whatever is read from the text takes the values again, and is written as if it had not
  have hagain : ∀ {document}, Document.read? edited.text = some document → ∃ newer,
      update new path network values = .ok (trimmed values, newer) ∧
        newer.read path = .ok (Text.tidy document.text) ∧
        (Text.tidy document.text = edited.text → newer = new) := by
    intro document hdocument
    obtain ⟨third, hthird⟩ := Document.exists_update?_again hsound hupdate hdocument
    have htext := Document.update?_again hsound hupdate hdocument hthird
    obtain ⟨newer, hnewer, hsame⟩ := Tree.write_again hread hwrite (Text.tidy third.text)
    have hupdated := update_eq_ok.mpr ⟨_, _, _, hsaved, ofText_of_read? hdocument,
      assign_of_update? hthird, hnewer⟩
    exact ⟨newer, hupdated, htext ▸ Tree.read_write hsaved hnewer, fun heq => hsame (htext.trans heq)⟩
  have hloaded : ∀ {result}, update new path network values = .ok result →
      ∃ document, Document.read? edited.text = some document := by
    rintro ⟨_, newer⟩ hresult
    obtain ⟨content', file', _, hread', hfile', -⟩ := update_eq_ok.mp hresult
    obtain rfl := Except.ok.inj (hsaved.symm.trans hread')
    exact ⟨_, read?_of_ofText hfile'⟩
  have hordered := Document.reread hsound
  refine ⟨content, file, edited, hread, hfile, hassign, hsaved, ⟨?_, fun hord => ?_⟩, ?_, ⟨?_, ?_⟩,
    Document.reprints_of_uniform hsound⟩
  · rintro ⟨result, hresult⟩
    obtain ⟨document, hdocument⟩ := hloaded hresult
    rcases hordered with ⟨hord, -⟩ | ⟨-, hnone⟩
    · exact hord
    · exact absurd (hdocument.symm.trans hnone) (Option.some_ne_none _)
  · rcases hordered with ⟨-, document, hdocument, -⟩ | ⟨hnot, -⟩
    · obtain ⟨newer, hnewer, -⟩ := hagain hdocument
      exact ⟨_, hnewer⟩
    · exact absurd hord hnot
  · rintro ⟨reported, newer⟩ hresult
    obtain ⟨_, _, _, -, -, hassign', -⟩ := update_eq_ok.mp hresult
    exact (update?_of_assign hassign').1
  · intro hresult
    obtain ⟨document, hdocument⟩ := hloaded hresult
    obtain ⟨newer, hnewer, htext, -⟩ := hagain hdocument
    obtain rfl : newer = new := congrArg Prod.snd (Except.ok.inj (hnewer.symm.trans hresult))
    exact ⟨document, hdocument, Except.ok.inj (htext.symm.trans hsaved)⟩
  · rintro ⟨document, hdocument, htext⟩
    obtain ⟨newer, hnewer, -, hsame⟩ := hagain hdocument
    rw [hsame htext] at hnewer
    exact hnewer

def workplace (s : Text) : Tree :=
  Tree.empty.put (Place.ofPath Plan.deploymentPath) (.file (Tree.encode s))

theorem read_workplace (s : Text) : (workplace s).read Plan.deploymentPath = .ok s :=
  Tree.read_of_readBytes rfl

theorem exists_update (s network : Text) (values : List (Text × Text)) (good : Document → Bool)
    (h : ((Document.read? s).any fun document => (document.update? Plan.networksKey [network]
      (writtenFields values)).any good) = true) :
    ∃ new document, update (workplace s) Plan.deploymentPath network values = .ok (trimmed values, new) ∧
      new.read Plan.deploymentPath = .ok (Text.tidy document.text) ∧ good document = true := by
  obtain ⟨document, hread, h⟩ := (Option.any_eq_true _ _).mp h
  obtain ⟨edited, hedited, hgood⟩ := (Option.any_eq_true _ _).mp h
  have hload := read_workplace s
  obtain ⟨new, hnew⟩ : ∃ new, (workplace s).write Plan.deploymentPath (Text.tidy edited.text) =
    .ok new := ⟨_, rfl⟩
  exact ⟨new, edited, update_eq_ok.mpr ⟨s, _, _, hload, ofText_of_read? hread,
    assign_of_update? hedited, hnew⟩, Tree.read_write hload hnew, hgood⟩

theorem update_again_plainText : ∃ tree new written, tree.read Plan.deploymentPath = .ok plainText ∧
    update tree Plan.deploymentPath "anvil".toList
      [("admin".toList, "\"".toList), ("zkc".toList, " a \nb".toList), ("admin".toList, "0x2".toList)] =
        .ok (written, new) ∧
    update new Plan.deploymentPath "anvil".toList
      [("admin".toList, "\"".toList), ("zkc".toList, " a \nb".toList), ("admin".toList, "0x2".toList)] =
        .ok (written, new) := by
  have hread := read_workplace plainText
  obtain ⟨new, document, hupdate, hsaved, hgood⟩ := exists_update plainText "anvil".toList
    [("admin".toList, "\"".toList), ("zkc".toList, " a \nb".toList), ("admin".toList, "0x2".toList)]
    (fun document => decide (Uniform (Text.tidy document.text))) (by decide +kernel)
  obtain ⟨_, _, edited, -, -, -, hedited, -, -, hagain, huniform⟩ := update_again hupdate
  have htext := Except.ok.inj (hedited.symm.trans hsaved)
  exact ⟨_, new, _, hread, hupdate, hagain.mpr (huniform (htext ▸ of_decide_eq_true hgood))⟩

def spacedText : Text := "[deployment.anvil\t.sub]\nx = 1\n".toList

/-- One update leaves a text that cannot be read, another one a text that it changes again. -/
theorem update_not_again :
    (∃ tree new written, tree.read Plan.deploymentPath = .ok crossedText ∧
      update tree Plan.deploymentPath "anvil".toList [] = .ok (written, new) ∧
      ∀ result, update new Plan.deploymentPath "anvil".toList [] ≠ .ok result) ∧
    (∃ tree new newer written, tree.read Plan.deploymentPath = .ok spacedText ∧
      update tree Plan.deploymentPath "anvil".toList [("admin".toList, "0x2".toList)] = .ok (written, new) ∧
      update new Plan.deploymentPath "anvil".toList [("admin".toList, "0x2".toList)] =
        .ok (written, newer) ∧
      newer.read Plan.deploymentPath ≠ new.read Plan.deploymentPath) := by
  constructor
  · obtain ⟨new, document, hupdate, hsaved, hgood⟩ := exists_update crossedText
      "anvil".toList [] (fun document => (Document.read? (Text.tidy document.text)).isNone)
      (by decide +kernel)
    refine ⟨_, new, _, read_workplace crossedText, hupdate, ?_⟩
    rintro ⟨_, newer⟩ hagain
    obtain ⟨content, file, -, hcontent, hfile, -⟩ := update_eq_ok.mp hagain
    obtain rfl := Except.ok.inj (hsaved.symm.trans hcontent)
    rw [read?_of_ofText hfile] at hgood
    cases hgood
  · obtain ⟨new, document, hupdate, hsaved, hgood⟩ := exists_update spacedText
      "anvil".toList [("admin".toList, "0x2".toList)] (fun document =>
        (Document.read? (Text.tidy document.text)).any fun again =>
          (again.update? Plan.networksKey ["anvil".toList]
            (writtenFields [("admin".toList, "0x2".toList)])).any fun third =>
              decide (Text.tidy third.text ≠ Text.tidy document.text)) (by decide +kernel)
    obtain ⟨again, hagain, hgood⟩ := (Option.any_eq_true _ _).mp hgood
    obtain ⟨third, hthird, hgood⟩ := (Option.any_eq_true _ _).mp hgood
    obtain ⟨_, _, _, hold, -, -, hwrite⟩ := update_eq_ok.mp hupdate
    obtain ⟨newer, hnewer, -⟩ := Tree.write_again hold hwrite (Text.tidy third.text)
    refine ⟨_, new, newer, _, read_workplace spacedText, hupdate, update_eq_ok.mpr ⟨_, _, _, hsaved,
      ofText_of_read? hagain, assign_of_update? hthird, hnewer⟩, ?_⟩
    rw [Tree.read_write hsaved hnewer, hsaved, ne_eq, Except.ok.injEq]
    exact of_decide_eq_true hgood

end DeploymentRecords.DeploymentFile
