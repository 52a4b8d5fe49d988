import DeploymentRecords.PlanFile

/-!
# Records

The three records of a plan's fields, read from the files that the plan names.
-/

namespace DeploymentRecords

open Files Toml

structure Records where
  deployments : List (Text × Value)
  sources : List (Path × Text)
  documentation : Text

namespace Records

def section? (records : Records) (network : Text) : Option (List (Text × Value)) :=
  match (records.deployments.lookup Plan.networksKey).bind Value.asTable? with
  | none => none
  | some networks => (networks.lookup network).bind Value.asTable?

theorem section?_eq_some_iff {records : Records} {network : Text} {entries : List (Text × Value)} :
    records.section? network = some entries ↔ ∃ networks,
      records.deployments.lookup Plan.networksKey = some (.table networks) ∧
        networks.lookup network = some (.table entries) := by
  have htable : ∀ (v? : Option Value) (entries : List (Text × Value)),
      v?.bind Value.asTable? = some entries ↔ v? = some (.table entries) := by
    intro v? entries
    cases v? with
    | none => simp
    | some v => simpa using Value.asTable?_eq_some_iff
  rw [section?]
  constructor
  · intro h
    split at h
    · cases h
    · next networks hnetworks => exact ⟨networks, (htable _ _).mp hnetworks, (htable _ _).mp h⟩
  · rintro ⟨networks, hnetworks, hnetwork⟩
    rw [(htable _ _).mpr hnetworks]
    exact (htable _ _).mpr hnetwork

def deploymentsOf? (s : Text) : Option (List (Text × Value)) :=
  (Document.read? s).bind fun doc => Value.unboxedEntries? doc.entries

def source (records : Records) (path : Path) : Text :=
  ((records.sources.find? fun (p, _) => Path.same path p).map (·.2)).getD []

def readFile (tree : Tree) (path : Path) : Except Failure Text :=
  match tree.read path with
  | .ok s => .ok s
  | .error fault => .error (.read path fault)

/-- The records of a plan below `root`. The first file that cannot be read is the failure: the
deployment file, then the source files, then the documentation. -/
def load (tree : Tree) (root : Path) (plan : Plan) : Except Failure Records := do
  let path := Path.join root plan.deployments
  let deployments ←
    match deploymentsOf? (← readFile tree path) with
    | some deployments => .ok deployments
    | none => .error (.deployments path)
  let sources ← plan.sources.mapM fun path => do
    return (path, ← readFile tree (Path.join root path))
  let documentation ← readFile tree (Path.join root plan.documentation)
  return ⟨deployments, sources, documentation⟩

end Records

end DeploymentRecords
