import DeploymentRecords.Failure
import DeploymentRecords.Plan
import DeploymentRecords.Toml.Document

/-!
# Plan files

A plan may be given in a file; what the file leaves out is as in the standard plan. Keys that mean
nothing are passed over. A group, a network or a field is a table with its parts under their keys,
or an array of its parts in order; of an array, elements beyond the last part are passed over.
-/

namespace DeploymentRecords.PlanFile

open Files Toml

def fileName : Path := ".deployments-check.toml".toList

/-- The part of a record under a key, or in the same place of an array. -/
def part? (index : Nat) (key : String) : Value → Option Value
  | .table entries => entries.lookup key.toList
  | .array elements => elements[index]?
  | .scalar _ => none

def required {α : Type} (decode : Value → Option α) (index : Nat) (key : String) (v : Value) :
    Option α :=
  (part? index key v).bind decode

def list? {α : Type} (decode : Value → Option α) : Value → Option (List α)
  | .array elements => elements.mapM decode
  | _ => none

def optional {α : Type} (decode : Value → Option α) (index : Nat) (key : String) (v : Value) :
    Option (Option α) :=
  match part? index key v with
  | none => some none
  | some v => (decode v).map some

def network? (v : Value) : Option Network := do
  let key ← required Value.asString? 0 "key" v
  let constant ← required Value.asString? 1 "constant" v
  let header ← optional Value.asString? 2 "docs_header" v
  return ⟨key, constant, header⟩

def field? (v : Value) : Option TrackedField := do
  let key ← required Value.asString? 0 "config" v
  let name ← required Value.asString? 1 "address" v
  return ⟨key, name⟩

def group? (v : Value) : Option Group := do
  let name ← required Value.asString? 0 "name" v
  let source ← required Value.asString? 1 "source" v
  let networks ← required (list? network?) 2 "networks" v
  let fields ← required (list? field?) 3 "fields" v
  return ⟨name, source, networks, fields⟩

def orStandard {α : Type} (decode : Value → Option α) (standard : α) (key : String)
    (entries : List (Text × Value)) : Option α :=
  match entries.lookup key.toList with
  | none => some standard
  | some v => decode v

def ofEntries? (entries : List (Text × Value)) : Option Plan := do
  let deployments ← orStandard Value.asString? Plan.standard.deployments "deployment_toml" entries
  let documentation ← orStandard Value.asString? Plan.standard.documentation "documentation" entries
  let groups ← orStandard (list? group?) Plan.standard.groups "groups" entries
  return ⟨deployments, documentation, groups⟩

def ofText? (s : Text) : Option Plan := (Document.read? s).bind fun doc => ofEntries? doc.entries

/-- The plan in the plan file below `root`, the standard plan if there is no such file. -/
def load (tree : Tree) (root : Path) : Except Failure Plan :=
  let path := Path.join root fileName
  if ¬ tree.present path then .ok Plan.standard
  else
    match tree.read path with
    | .error fault => .error (.read path fault)
    | .ok s =>
      match ofText? s with
      | some plan => .ok plan
      | none => .error (.plan path)

end DeploymentRecords.PlanFile
