import DeploymentRecords.Documentation
import DeploymentRecords.Finding
import DeploymentRecords.Records
import DeploymentRecords.SourceTable

/-!
# Audits

An audit compares, for every group, network and field of a plan, the value in the deployment file
with the address in the source file and, where the network has a header, the address in the
documentation. Everything is compared in lower case; a value that is absent is reported once and
compared with nothing.
-/

namespace DeploymentRecords

open Files Toml

structure Audit where
  findings : List Finding
  deriving DecidableEq, Repr

namespace Audit

def isClean (audit : Audit) : Bool := audit.findings.isEmpty
def placeholders (audit : Audit) : List Finding := audit.findings.filter Finding.isPlaceholder
def disagreements (audit : Audit) : List Finding := audit.findings.filter fun f => !f.isPlaceholder

structure Reading where
  record : Record
  value : Text
  deriving DecidableEq, Repr

def absences (subject : Subject) (reading : Reading) : List Finding :=
  if reading.value = [] then [.absent subject reading.record] else []

def conflicts (subject : Subject) (deployed : Text) (reading : Reading) : List Finding :=
  if deployed ≠ [] ∧ reading.value ≠ [] ∧ deployed ≠ reading.value then
    [.conflict subject reading.record deployed reading.value]
  else []

/-- What there is to say about a field with these readings: first what is absent, then what
differs from the deployment file. -/
def compare (subject : Subject) (deployed : Reading) (others : List Reading) : List Finding :=
  (deployed :: others).flatMap (absences subject) ++
    others.flatMap (conflicts subject deployed.value)

def deployedValue (entries : Option (List (Text × Value))) (key : Text) : Text :=
  Text.lower ((((entries.getD []).lookup key).map Value.text).getD [])

def listedValue (table : AddressTable) (field : Text) : Text := Text.lower (table.get field)

def ofNetwork (plan : Plan) (records : Records) (group : Group) (network : Network) :
    List Finding :=
  let entries := records.section? network.key
  let source := SourceTable.read (records.source group.source) network.constant
  let documented := network.header.map fun header =>
    (header, Documentation.read records.documentation header)
  group.fields.flatMap fun field =>
    let listed := documented.toList.map fun (header, table) =>
      ⟨.documentation header, listedValue table field.name⟩
    compare ⟨network.key, field.key, field.name⟩
      ⟨.deployments plan.deploymentName, deployedValue entries field.key⟩
      (⟨.source group.source, listedValue source field.name⟩ :: listed)

end Audit

/-- The audit of records: placeholders first, then the groups in the order of the plan. -/
def Plan.audit (plan : Plan) (records : Records) : Audit :=
  ⟨(Documentation.placeholders records.documentation).map .placeholder ++
    plan.groups.flatMap fun group =>
      group.networks.flatMap fun network => Audit.ofNetwork plan records group network⟩

def Plan.auditFiles (plan : Plan) (tree : Tree) (root : Path) : Except Failure Audit :=
  (Records.load tree root plan).map plan.audit

end DeploymentRecords
