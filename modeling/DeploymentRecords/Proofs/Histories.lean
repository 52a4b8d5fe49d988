import DeploymentRecords.Proofs.Boxes
import DeploymentRecords.Proofs.Sections

/-! # Histories of changes

A deployment file after changes that were tried one after the other, accepted or refused. At every
point the file refuses just the networks that it had no section for in the beginning, and that is
what its text says to a reader, as long as it says anything. -/

namespace DeploymentRecords

open Toml

structure Change where
  network : Text
  values : List (Text × Text)

def Change.Boxless (change : Change) : Prop := ∀ value ∈ change.values, value.1 ≠ Value.boxKey

namespace DeploymentFile

/-- The file after a change was tried; a refused change leaves it as it is. -/
def attempt (file : DeploymentFile) (change : Change) : DeploymentFile :=
  match file.assign change.network change.values with
  | .ok (_, new) => new
  | .error _ => file

def after (file : DeploymentFile) (history : List Change) : DeploymentFile := history.foldl attempt file

variable {file new : DeploymentFile} {change : Change} {history : List Change} {network : Text}
  {values : List (Text × Text)} {path : Files.Path} {s : Text}

theorem assign_eq_error_iff : (∃ failure, file.assign network values = .error failure) ↔
    file.document.update? Plan.networksKey [network] (writtenFields values) = none := by
  have hfields : ((trimmed values).map fun w => (w.field, w.value)) = writtenFields values := rfl
  unfold assign
  dsimp only
  rw [hfields]
  cases file.document.update? Plan.networksKey [network] (writtenFields values) <;> simp

/-- A change is refused, or its document is the old one with the values written into it. -/
theorem attempt_cases (file : DeploymentFile) (change : Change) : file.attempt change = file ∨
    (file.attempt change).path = file.path ∧ file.document.update? Plan.networksKey [change.network]
      (writtenFields change.values) = some (file.attempt change).document := by
  unfold attempt
  cases hassign : file.assign change.network change.values with
  | error failure => exact Or.inl rfl
  | ok result =>
    obtain ⟨written, new⟩ := result
    obtain ⟨-, hupdate⟩ := update?_of_assign hassign
    exact Or.inr ⟨(assign_eq_ok hassign).2, hupdate⟩

structure Keeps (file new : DeploymentFile) : Prop where
  path : new.path = file.path
  sound : new.document.Sound
  boxless : Value.EntriesBoxless new.document.entries
  sections : ∀ network, new.document.settledValue.HasTable [Plan.networksKey, network] ↔
    file.document.settledValue.HasTable [Plan.networksKey, network]

theorem keeps_self (hfile : ofText path s = .ok file)
    (hboxes : Value.EntriesBoxless file.document.entries) : Keeps file file :=
  ⟨rfl, Document.sound_of_read? (read?_of_ofText hfile), hboxes, fun _ => Iff.rfl⟩

theorem Keeps.attempt (h : Keeps file new) (hchange : change.Boxless) :
    Keeps file (new.attempt change) := by
  rcases new.attempt_cases change with hsame | ⟨hpath, hupdate⟩
  · rw [hsame]
    exact h
  · have hwritten : ∀ field ∈ writtenFields change.values, field.1 ≠ Value.boxKey := by
      rw [writtenFields_eq, List.forall_mem_map]
      exact hchange
    refine ⟨hpath.trans h.path, h.sound.update? hupdate (show 3 < Key.maxPath by decide), ?_,
      fun network => ?_⟩
    · rw [Document.entries, Member.entryValues_eq, ← Member.entriesBoxless_settledEntries]
      exact Document.update?_boxless hupdate hwritten h.boxless
    · have hlength : [Plan.networksKey, network].length ≤
          [Plan.networksKey, change.network].length := Nat.le_refl _
      exact ((Document.update?_overwritten hupdate).hasTable_iff hlength).trans (h.sections network)

theorem Keeps.after (h : Keeps file new) (hhistory : ∀ change ∈ history, change.Boxless) :
    Keeps file (new.after history) := by
  induction history generalizing new with
  | nil => exact h
  | cons change history ih =>
    obtain ⟨hchange, hhistory⟩ := List.forall_mem_cons.mp hhistory
    exact ih (h.attempt hchange) hhistory

theorem Keeps.refuses_iff (h : Keeps file new) :
    (∃ failure, new.assign network values = .error failure) ↔
      ¬ file.document.settledValue.HasTable [Plan.networksKey, network] := by
  rw [assign_eq_error_iff, ← h.sections network, ← Option.not_isSome_iff_eq_none,
    Document.update?_isSome_iff Expr.tableLike_settledValue]
  rfl

theorem Keeps.settled_boxless (h : Keeps file new) :
    Value.EntriesBoxless (Member.settledEntries new.document.root) := by
  rw [Member.entriesBoxless_settledEntries, ← Member.entryValues_eq]
  exact h.boxless

/-- The entries that were read have sections for the same networks as the document without the ends
of its lines. -/
theorem hasTable_entries_iff {doc : Document} {name : Text} {below : List Text} :
    (Value.table doc.entries).HasTable (name :: below) ↔ doc.settledValue.HasTable (name :: below) := by
  have hvalue : (doc.update? name below []).isSome ↔
      (Value.table (Member.entryValuesBy Expr.value doc.root)).HasTable (name :: below) :=
    Document.update?_isSome_iff Expr.tableLike_value
  rw [Document.entries, Member.entryValues_eq, ← hvalue,
    Document.update?_isSome_iff Expr.tableLike_settledValue]
  rfl

theorem Keeps.refuses_iff_section? (h : Keeps file new) {v : Value} {records : Records}
    (hsame : Value.SameBut [] [] v.canonical (.table records.deployments))
    (htable : v.HasTable [Plan.networksKey, network] ↔
      file.document.settledValue.HasTable [Plan.networksKey, network]) :
    (∃ failure, new.assign network values = .error failure) ↔ records.section? network = none := by
  rw [h.refuses_iff, Records.section?_eq_none_iff, hsame.hasTable_iff, Value.hasTable_canonical, htable]

def mixedHistory : List Change :=
  [⟨"base".toList, [("admin".toList, "0x1".toList)]⟩, ⟨"anvil".toList, [("admin".toList, "0x2".toList)]⟩]

/-- Whatever was tried before, a change is refused just if the text that was read in the beginning
has no section for its network, and then nothing happens. The text of the file itself says so too
just if its document is ordered; else it says nothing at all. -/
theorem refuses_iff_no_section (hfile : ofText path s = .ok file)
    (hboxes : Value.EntriesBoxless file.document.entries)
    (hhistory : ∀ change ∈ history, change.Boxless) (network : Text) (values : List (Text × Text)) :
    (∀ failure, (file.after history).assign network values = .error failure →
      failure = .noSection network path ∧
        ((file.after history).attempt ⟨network, values⟩).text = (file.after history).text) ∧
    (∃ deployments, Records.deploymentsOf? s = some deployments ∧
      ∀ records : Records, records.deployments = deployments →
        ((∃ failure, (file.after history).assign network values = .error failure) ↔
          records.section? network = none)) ∧
    ((∃ deployments, Records.deploymentsOf? (file.after history).text = some deployments ∧
      ∀ records : Records, records.deployments = deployments →
        ((∃ failure, (file.after history).assign network values = .error failure) ↔
          records.section? network = none)) ↔ (file.after history).document.Ordered) := by
  have hkeeps := (keeps_self hfile hboxes).after hhistory
  refine ⟨fun failure hassign => ⟨?_, ?_⟩,
    ⟨_, Records.deploymentsOf?_eq (read?_of_ofText hfile) hboxes, ?_⟩, ?_⟩
  · rw [assign_eq_error hassign, hkeeps.path, ofText_eq_ok hfile]
  · rw [attempt, hassign]
  · rintro records hrecords
    refine hkeeps.refuses_iff_section? ?_ hasTable_entries_iff
    rw [hrecords]
    exact Value.same_canonicalEntries file.document.entries
  · rcases Records.deploymentsOf?_text hkeeps.sound hkeeps.settled_boxless with
      ⟨hordered, deployments, hread, hsame⟩ | ⟨hordered, hnone⟩
    · refine iff_of_true ⟨deployments, hread, ?_⟩ hordered
      rintro records rfl
      exact hkeeps.refuses_iff_section? hsame (hkeeps.sections network)
    · refine iff_of_false ?_ hordered
      rintro ⟨deployments, hread, -⟩
      exact Option.some_ne_none _ (hread.symm.trans hnone)

theorem plainText_keeps_sections : ∃ file deployments, ofText [] plainText = .ok file ∧
    (file.after mixedHistory).text ≠ file.text ∧
    (∃ failure, (file.after mixedHistory).assign "base".toList [] = .error failure) ∧
    Records.deploymentsOf? (file.after mixedHistory).text = some deployments ∧
    ∀ records : Records, records.deployments = deployments →
      records.section? "base".toList = none ∧ records.section? "anvil".toList ≠ none := by
  obtain ⟨file, hfile, hboxes, hgood⟩ := exists_file plainText (fun file =>
    decide ((file.after mixedHistory).text ≠ file.text ∧ (file.after mixedHistory).document.Ordered) &&
      !((file.after mixedHistory).assign "base".toList []).isOk &&
      ((file.after mixedHistory).assign "anvil".toList []).isOk) (by decide +kernel)
  simp only [Bool.and_eq_true, decide_eq_true_eq, Bool.not_eq_true'] at hgood
  obtain ⟨⟨⟨hchanged, hordered⟩, hbase⟩, hanvil⟩ := hgood
  have hhistory : ∀ change ∈ mixedHistory, change.Boxless := by
    simp only [Change.Boxless]
    decide +kernel
  obtain ⟨deployments, hread, hrefused⟩ :=
    (refuses_iff_no_section hfile hboxes hhistory "base".toList []).2.2.mpr hordered
  obtain ⟨_, hread', haccepted⟩ :=
    (refuses_iff_no_section hfile hboxes hhistory "anvil".toList []).2.2.mpr hordered
  obtain rfl := Option.some.inj (hread.symm.trans hread')
  have hfailure : ∃ failure, (file.after mixedHistory).assign "base".toList [] = .error failure := by
    cases h : (file.after mixedHistory).assign "base".toList [] with
    | error failure => exact ⟨failure, rfl⟩
    | ok result => rw [h] at hbase; cases hbase
  refine ⟨file, deployments, hfile, hchanged, hfailure, hread, fun records hrecords =>
    ⟨(hrefused records hrecords).mp hfailure, fun hnone => ?_⟩⟩
  obtain ⟨failure, hfailure⟩ := (haccepted records hrecords).mpr hnone
  rw [hfailure] at hanvil
  cases hanvil

/-- A change was accepted, and so is the next one, though the text says nothing any more. -/
theorem crossedText_silent : ∃ file written new, ofText [] crossedText = .ok file ∧
    Value.EntriesBoxless file.document.entries ∧
    (file.after [⟨"anvil".toList, []⟩]).assign "anvil".toList [] = .ok (written, new) ∧
    Records.deploymentsOf? (file.after [⟨"anvil".toList, []⟩]).text = none := by
  obtain ⟨file, hfile, hboxes, hgood⟩ := exists_file crossedText (fun file =>
    ((file.after [⟨"anvil".toList, []⟩]).assign "anvil".toList []).isOk &&
      (Records.deploymentsOf? (file.after [⟨"anvil".toList, []⟩]).text).isNone) (by decide +kernel)
  obtain ⟨haccepted, hnone⟩ := (Bool.and_eq_true _ _).mp hgood
  cases hassign : (file.after [⟨"anvil".toList, []⟩]).assign "anvil".toList [] with
  | error failure => rw [hassign] at haccepted; cases haccepted
  | ok result =>
    exact ⟨file, result.1, result.2, hfile, hboxes, hassign, Option.isNone_iff_eq_none.mp hnone⟩

end DeploymentFile

end DeploymentRecords
