import DeploymentRecords.Failure
import DeploymentRecords.Plan
import DeploymentRecords.Text.Lines
import DeploymentRecords.Toml.Edit

/-!
# Deployment files

A deployment file that is open for changes. Fields are written into the table of one network and
the rest of the file stays as it is laid out, but for white space at the ends of lines. A change is
refused as a whole if the network has no table.
-/

namespace DeploymentRecords

open Files Toml

structure Written where
  field : Text
  value : Text
  deriving DecidableEq, Repr

structure DeploymentFile where
  path : Path
  document : Document

namespace DeploymentFile

def ofText (path : Path) (s : Text) : Except Failure DeploymentFile :=
  match Document.read? s with
  | some document => .ok ⟨path, document⟩
  | none => .error (.edit path)

def trimmed (values : List (Text × Text)) : List Written :=
  values.map fun (field, value) => ⟨field, Text.trim value⟩

def assign (file : DeploymentFile) (network : Text) (values : List (Text × Text)) :
    Except Failure (List Written × DeploymentFile) :=
  let written := trimmed values
  match file.document.update? Plan.networksKey [network] (written.map fun w => (w.field, w.value)) with
  | some document => .ok (written, { file with document })
  | none => .error (.noSection network file.path)

def text (file : DeploymentFile) : Text := Text.tidy file.document.text

def load (tree : Tree) (path : Path) : Except Failure DeploymentFile :=
  match tree.read path with
  | .ok s => ofText path s
  | .error fault => .error (.read path fault)

def save (file : DeploymentFile) (tree : Tree) : Except Failure Tree :=
  match tree.write file.path file.text with
  | .ok tree => .ok tree
  | .error fault => .error (.write file.path fault)

def update (tree : Tree) (path : Path) (network : Text) (values : List (Text × Text)) :
    Except Failure (List Written × Tree) := do
  let file ← load tree path
  let (written, file) ← file.assign network values
  return (written, ← file.save tree)

variable {path : Path} {s network : Text} {file new : DeploymentFile} {values : List (Text × Text)}
  {written : List Written} {failure : Failure}

theorem ofText_eq_ok (h : ofText path s = .ok file) : file.path = path := by
  unfold ofText at h
  split at h
  · obtain rfl := Except.ok.inj h
    rfl
  · cases h

theorem ofText_eq_error (h : ofText path s = .error failure) : failure = .edit path := by
  unfold ofText at h
  split at h
  · cases h
  · exact (Except.error.inj h).symm

theorem assign_eq_ok (h : file.assign network values = .ok (written, new)) :
    written = trimmed values ∧ new.path = file.path := by
  unfold assign at h
  dsimp only at h
  split at h
  · obtain ⟨rfl, rfl⟩ := Prod.mk.inj (Except.ok.inj h)
    exact ⟨rfl, rfl⟩
  · cases h

theorem assign_eq_error (h : file.assign network values = .error failure) :
    failure = .noSection network file.path := by
  unfold assign at h
  dsimp only at h
  split at h
  · cases h
  · exact (Except.error.inj h).symm

end DeploymentFile

structure Destination where
  path : Path
  network : Text
  deriving DecidableEq, Repr

namespace Destination

def standardNetwork : Text := "anvil".toList

/-- The network named by the variable `CHAIN_KEY`; one that is not set or is no text counts for
nothing. -/
def ofEnvironment (chainKey : Option ByteArray) : Destination :=
  ⟨Plan.deploymentPath, (chainKey.bind Tree.decode?).getD standardNetwork⟩

end Destination

/-- The fields that the command line can set, in the order in which they are written. -/
def settableFields : List Text :=
  ["admin", "verifier", "set-verifier", "boundless-market", "boundless-market-impl",
   "boundless-market-old-impl", "collateral-token", "assessor-image-id", "assessor-guest-url",
   "povw-accounting", "povw-accounting-impl", "povw-accounting-old-impl", "povw-mint",
   "povw-mint-impl", "povw-mint-old-impl", "povw-log-updater-id", "povw-mint-calculator-id",
   "povw-accounting-deployment-commit", "povw-mint-deployment-commit", "zkc", "vezkc"].map
    String.toList

end DeploymentRecords
