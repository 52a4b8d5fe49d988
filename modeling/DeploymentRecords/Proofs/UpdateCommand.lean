import DeploymentRecords.Proofs.ArgumentLists

/-! # Runs of the update command

A run that is not asked for help either does all that it was given to do, and says so, or does
nothing and says nothing about fields. Opening the file for writing is the last step that can fail. -/

namespace DeploymentRecords

open Files

namespace DeploymentFile

/-- The steps of an update, of which each can be the one that fails. -/
inductive Progress (tree : Tree) (path : Path) (network : Text) (values : List (Text × Text)) :
    Except Failure (List Written × Tree) → Prop where
  | unreadable {fault : Fault} (hread : tree.read path = .error fault) :
      Progress tree path network values (.error (.read path fault))
  | invalid {content : Text} (hread : tree.read path = .ok content)
      (hfile : ofText path content = .error (.edit path)) :
      Progress tree path network values (.error (.edit path))
  | noSection {content : Text} {file : DeploymentFile} (hread : tree.read path = .ok content)
      (hfile : ofText path content = .ok file)
      (hassign : file.assign network values = .error (.noSection network path)) :
      Progress tree path network values (.error (.noSection network path))
  | unwritable {content : Text} {file new : DeploymentFile}
      (hread : tree.read path = .ok content) (hfile : ofText path content = .ok file)
      (hassign : file.assign network values = .ok (trimmed values, new))
      (hwrite : tree.write path new.text = .error .denied) :
      Progress tree path network values (.error (.write path .denied))
  | written {content : Text} {file new : DeploymentFile} {tree' : Tree}
      (hread : tree.read path = .ok content) (hfile : ofText path content = .ok file)
      (hassign : file.assign network values = .ok (trimmed values, new))
      (hwrite : tree.write path new.text = .ok tree') :
      Progress tree path network values (.ok (trimmed values, tree'))

theorem progress_update (tree : Tree) (path : Path) (network : Text) (values : List (Text × Text)) :
    Progress tree path network values (update tree path network values) := by
  unfold update load
  cases hread : tree.read path with
  | error fault => exact .unreadable hread
  | ok content =>
    cases hfile : ofText path content with
    | error failure =>
      obtain rfl := ofText_eq_error hfile
      simp only [hfile]
      exact .invalid hread hfile
    | ok file =>
      have hpath := ofText_eq_ok hfile
      simp only [hfile]
      cases hassign : file.assign network values with
      | error failure =>
        obtain rfl := hpath ▸ assign_eq_error hassign
        show Progress tree path network values ((file.assign network values).bind _)
        rw [hassign]
        exact .noSection hread hfile hassign
      | ok result =>
        obtain ⟨written, new⟩ := result
        obtain ⟨rfl, hnew⟩ := assign_eq_ok hassign
        show Progress tree path network values ((file.assign network values).bind _)
        rw [hassign]
        show Progress tree path network values ((new.save tree).bind _)
        unfold save
        rw [hnew, hpath]
        -- the file was read, so nothing but its permissions is in the way
        rcases Tree.write_of_read hread new.text with ⟨tree', hwrite⟩ | hwrite
        · rw [hwrite]
          exact .written hread hfile hassign hwrite
        · rw [hwrite]
          exact .unwritable hread hfile hassign hwrite

end DeploymentFile

namespace Command.Update

def networkOf (chainKey : Option ByteArray) : Text :=
  (chainKey.bind Tree.decode?).getD "anvil".toList

/-- The flags of the arguments with their values, in the order of the fields. -/
def Given (args : List ByteArray) (given : List (Text × Text)) : Prop :=
  Behind (fun pairs rest => Ended rest ∧ given.Perm pairs ∧ (given.map Prod.fst).Sublist settableFields) args

def told (network : Text) (given : List (Text × Text)) : Text :=
  (given.flatMap fun (field, value) => "Updated '".toList ++ field ++ "' to '".toList ++
    Text.trim value ++ "' in [deployment.".toList ++ network ++ "]\n".toList) ++
  "contracts/deployment.toml updated successfully.\n".toList

/-- The run did what the flags ask for: the file holds the text of the changed document, nothing
else changed, and every field is told. -/
structure Completed (network : Text) (given : List (Text × Text)) (tree : Tree) (outcome : Outcome) : Prop where
  status : outcome.status = Outcome.success
  changed : ∃ content file written new,
    tree.read Plan.deploymentPath = .ok content ∧
    DeploymentFile.ofText Plan.deploymentPath content = .ok file ∧
    file.assign network given = .ok (written, new) ∧
    outcome.tree.readBytes Plan.deploymentPath = .ok (Tree.encode new.text) ∧
    ∃ place, ∀ other, other ≠ place → outcome.tree.node? other = tree.node? other
  stdout : outcome.stdout = told network given

/-- What keeps a run from doing what it is given to do: its arguments, or a step of the update. -/
def Hindered (network : Text) (args : List ByteArray) (tree : Tree) : Prop :=
  Faulty args ∨ ∃ given failure, Given args given ∧
    DeploymentFile.Progress tree Plan.deploymentPath network given (.error failure)

structure Refused (tree : Tree) (outcome : Outcome) : Prop where
  status : outcome.status ≠ Outcome.success
  stdout : outcome.stdout = []
  tree : outcome.tree = tree

inductive Ran (network : Text) (given : List (Text × Text)) (tree : Tree) : Outcome → Prop
  | failed {failure : Failure}
      (h : DeploymentFile.update tree Plan.deploymentPath network given = .error failure) :
      Ran network given tree ⟨Outcome.failure, [],
        failureIn "Failed to update contracts/deployment.toml".toList failure, tree⟩
  | written {written : List Written} {new : Tree}
      (h : DeploymentFile.update tree Plan.deploymentPath network given = .ok (written, new)) :
      Ran network given tree ⟨Outcome.success, told network given, [], new⟩

theorem ran_run (network : Text) (values : List (Text × Text)) (tree : Tree) :
    Ran network (ordered values) tree (run ⟨Plan.deploymentPath, network⟩ values tree) := by
  have hprogress := DeploymentFile.progress_update tree Plan.deploymentPath network (ordered values)
  unfold run
  dsimp only
  cases hupdate : DeploymentFile.update tree Plan.deploymentPath network (ordered values) with
  | error failure => exact .failed hupdate
  | ok result =>
    obtain ⟨written, new⟩ := result
    rw [hupdate] at hprogress
    cases hprogress with
    | written =>
      have htold : ((DeploymentFile.trimmed (ordered values)).flatMap (writtenText network) ++
          Plan.deploymentPath ++ " updated successfully.\n".toList) = told network (ordered values) := by
        rw [List.append_assoc, DeploymentFile.trimmed, List.flatMap_map]
        rfl
      dsimp only
      rw [htold]
      exact .written hupdate

theorem Ran.completed_or_refused {network : Text} {given : List (Text × Text)} {tree : Tree}
    {outcome : Outcome} (h : Ran network given tree outcome) :
    Completed network given tree outcome ∨ Refused tree outcome ∧ ∃ failure,
      DeploymentFile.Progress tree Plan.deploymentPath network given (.error failure) := by
  have hprogress := DeploymentFile.progress_update tree Plan.deploymentPath network given
  cases h with
  | failed h =>
    have hstatus : Outcome.failure ≠ Outcome.success := by decide
    exact Or.inr ⟨⟨hstatus, rfl, rfl⟩, _, h ▸ hprogress⟩
  | written h =>
    rw [h] at hprogress
    cases hprogress with
    | written hread hfile hassign hwrite =>
      obtain ⟨hbytes, place, hplace⟩ := Tree.readBytes_write hread hwrite
      exact Or.inl ⟨rfl, ⟨_, _, _, _, hread, hfile, hassign, hbytes, place,
        fun other hother => (hplace other).trans (if_neg hother)⟩, rfl⟩

/-- The flags that were read are the given ones once they are in the order of the fields. -/
theorem given_ordered {args : List ByteArray} {values : List (Text × Text)}
    (h : Request.read settableFields args = .flags values) : Given args (ordered values) := by
  have hasks := asks_read args
  rw [h] at hasks
  cases hasks with
  | flags hbehind =>
    obtain ⟨pairs, front, rest, hsplit, hspelled, hadmissible, hended, hperm⟩ := hbehind
    exact ⟨pairs, front, rest, hsplit, hspelled, hadmissible, hended,
      (ordered_perm (Request.admissible_of_read h)).trans hperm, ordered_sublist⟩

theorem command_flags (chainKey : Option ByteArray) {args : List ByteArray} {values : List (Text × Text)}
    (h : Request.read settableFields args = .flags values) (tree : Tree) :
    Ran (networkOf chainKey) (ordered values) tree (command chainKey args tree) := by
  rw [command, flags_eq, h]
  exact ran_run (networkOf chainKey) values tree

theorem command_misuse {chainKey : Option ByteArray} {args : List ByteArray}
    (h : Request.read settableFields args = .misuse) (tree : Tree) :
    command chainKey args tree = ⟨Outcome.misuse, [], misuse, tree⟩ := by
  rw [command, flags_eq, h]

/-- Every run answers a request for help, does all that it was given to do, or does nothing. -/
theorem command_completes_or_refuses (chainKey : Option ByteArray) (args : List ByteArray)
    (tree : Tree) :
    (Helped args ∧ command chainKey args tree = ⟨Outcome.success, help, [], tree⟩) ∨
    (∃ given, Given args given ∧ Completed (networkOf chainKey) given tree (command chainKey args tree)) ∨
    (Hindered (networkOf chainKey) args tree ∧ Refused tree (command chainKey args tree)) := by
  cases hrequest : Request.read settableFields args with
  | help =>
    have hasks := asks_read args
    rw [hrequest] at hasks
    cases hasks with
    | help hhelped => exact Or.inl ⟨hhelped, by rw [command, flags_eq, hrequest]⟩
  | misuse =>
    have hstatus : Outcome.misuse ≠ Outcome.success := by decide
    rw [command_misuse hrequest]
    exact Or.inr (Or.inr ⟨Or.inl (faulty_of_read hrequest), hstatus, rfl, rfl⟩)
  | flags values =>
    have hgiven := given_ordered hrequest
    rcases (command_flags chainKey hrequest tree).completed_or_refused with hcompleted | ⟨hrefused, failure, hprogress⟩
    · exact Or.inr (Or.inl ⟨_, hgiven, hcompleted⟩)
    · exact Or.inr (Or.inr ⟨Or.inr ⟨_, failure, hgiven, hprogress⟩, hrefused⟩)

end Command.Update

end DeploymentRecords
