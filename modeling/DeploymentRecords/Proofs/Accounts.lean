import DeploymentRecords.Proofs.Attribution
import DeploymentRecords.Proofs.CleanAudit

/-! # The account of a report

A report holds the placeholders of the documentation and then one block for each visit of a field, in
the order of the plan. What stands in a block follows from the three values of the visit alone: an
absence for each that is empty, and a conflict for each that is neither empty nor what the deployment
file says. -/

namespace DeploymentRecords

open Files Toml Number

theorem Text.lower_eq_nil_iff {s : Text} : Text.lower s = [] ↔ s = [] := by
  cases s with
  | nil => simp [Text.lower, Text.lowerFrom]
  | cons c s =>
    have hne : Text.lowerChar c ≠ [] := by
      unfold Text.lowerChar
      split <;> simp
    simp only [Text.lower, Text.lowerFrom, List.append_eq_nil_iff]
    split <;> simp [hne]

namespace Number

theorem signed_ne_nil (n : Int) : signed n ≠ [] := by
  unfold signed
  split
  · simp
  · exact Nat.toDigits_ne_nil

theorem Binary64.text_ne_nil (x : Binary64) : x.text ≠ [] := by
  have hpositional : ∀ n u, positional n u ≠ [] := by
    intro n u
    unfold positional
    split <;> simp
  cases x with
  | nan => simp [Binary64.text]
  | infinite negative => simp [Binary64.text]
  | finite negative m e =>
    simp only [Binary64.text, ne_eq, List.append_eq_nil_iff, not_and]
    intro _
    split
    · simp
    · exact hpositional _ _

end Number

/-- Only the empty string is shown as nothing. -/
theorem Toml.Value.text_eq_nil_iff {v : Value} : v.text = [] ↔ v = .string [] := by
  match v with
  | .scalar (.string s) => simp [Value.text, Value.string]
  | .scalar (.integer n) => exact iff_of_false (signed_ne_nil n) (by simp [Value.string])
  | .scalar (.float x) => exact iff_of_false x.text_ne_nil (by simp [Value.string])
  | .scalar (.boolean true) => exact iff_of_false (by decide) (by simp [Value.string])
  | .scalar (.boolean false) => exact iff_of_false (by decide) (by simp [Value.string])
  | .scalar (.datetime d) => simp [Value.text, Value.inlineText, Value.string]
  | .array elements => simp [Value.text, Value.inlineText, Value.string]
  | .table [] => simp [Value.text, Value.inlineText, Value.string]
  | .table (entry :: entries) => simp [Value.text, Value.inlineText, Value.string]

namespace Audit

variable {subject : Subject} {deployed : Reading} {others : List Reading} {record : Record}

theorem mem_absences {reading : Reading} {finding : Finding} : finding ∈ absences subject reading ↔
    reading.value = [] ∧ finding = .absent subject reading.record := by
  unfold absences
  split <;> simp_all

theorem mem_conflicts {x : Text} {reading : Reading} {finding : Finding} :
    finding ∈ conflicts subject x reading ↔ (x ≠ [] ∧ reading.value ≠ [] ∧ x ≠ reading.value) ∧
      finding = .conflict subject reading.record x reading.value := by
  unfold conflicts
  split
  · next h => simp [h]
  · next h => simp [h]

theorem mem_compare {finding : Finding} : finding ∈ compare subject deployed others ↔
    (∃ reading ∈ deployed :: others, reading.value = [] ∧ finding = .absent subject reading.record) ∨
      ∃ reading ∈ others, (deployed.value ≠ [] ∧ reading.value ≠ [] ∧ deployed.value ≠ reading.value) ∧
        finding = .conflict subject reading.record deployed.value reading.value := by
  simp only [compare, List.mem_append, List.mem_flatMap, mem_absences, mem_conflicts]

theorem mem_compare_absent : .absent subject record ∈ compare subject deployed others ↔
    ∃ reading ∈ deployed :: others, reading.record = record ∧ reading.value = [] := by
  rw [mem_compare]
  constructor
  · rintro (⟨reading, hmem, hnil, he⟩ | ⟨reading, -, -, he⟩)
    · exact ⟨reading, hmem, (Finding.absent.inj he).2.symm, hnil⟩
    · cases he
  · rintro ⟨reading, hmem, rfl, hnil⟩
    exact Or.inl ⟨reading, hmem, hnil, rfl⟩

theorem mem_compare_conflict {x y : Text} : .conflict subject record x y ∈ compare subject deployed others ↔
    ∃ reading ∈ others, reading.record = record ∧ (x = deployed.value ∧ y = reading.value) ∧
      x ≠ [] ∧ y ≠ [] ∧ x ≠ y := by
  rw [mem_compare]
  constructor
  · rintro (⟨reading, -, -, he⟩ | ⟨reading, hmem, hdiffer, he⟩)
    · cases he
    · obtain ⟨-, rfl, rfl, rfl⟩ := Finding.conflict.inj he
      exact ⟨reading, hmem, rfl, ⟨rfl, rfl⟩, hdiffer⟩
  · rintro ⟨reading, hmem, rfl, ⟨rfl, rfl⟩, hdiffer⟩
    exact Or.inr ⟨reading, hmem, hdiffer, rfl⟩

theorem flatMap_sublist_map {findings : Reading → List Finding} {finding : Reading → Finding}
    (h : ∀ reading, (findings reading).Sublist [finding reading]) (readings : List Reading) :
    (readings.flatMap findings).Sublist (readings.map finding) := by
  induction readings with
  | nil => exact List.Sublist.refl []
  | cons reading readings ih => exact (h reading).append ih

/-- A block is part of all that there could be to say, in this order. -/
theorem compare_sublist (subject : Subject) (deployed : Reading) (others : List Reading) :
    (compare subject deployed others).Sublist
      ((deployed :: others).map (fun reading => .absent subject reading.record) ++
        others.map fun reading => .conflict subject reading.record deployed.value reading.value) := by
  refine (flatMap_sublist_map (fun reading => ?_) _).append (flatMap_sublist_map (fun reading => ?_) _)
  · unfold absences
    split <;> simp
  · unfold conflicts
    split <;> simp

/-- Nothing that is absent differs. -/
theorem length_compare_le (subject : Subject) (deployed : Reading) (others : List Reading) :
    (compare subject deployed others).length ≤ others.length + 1 := by
  have hone : ∀ reading, (absences subject reading).length +
      (conflicts subject deployed.value reading).length ≤ 1 := by
    intro reading
    unfold absences conflicts
    split
    · next h => simp [h]
    · split <;> simp
  have hothers : ∀ readings : List Reading, (readings.flatMap (absences subject)).length +
      (readings.flatMap (conflicts subject deployed.value)).length ≤ readings.length := by
    intro readings
    induction readings with
    | nil => exact Nat.le_refl 0
    | cons reading readings ih =>
      have := hone reading
      simp only [List.flatMap_cons, List.length_append, List.length_cons]
      omega
  have := hone deployed
  have := hothers others
  simp only [compare, List.flatMap_cons, List.length_append]
  omega

end Audit

structure Visit where
  group : Group
  network : Network
  field : TrackedField

def Plan.visits (plan : Plan) : List Visit :=
  plan.groups.flatMap fun group => group.networks.flatMap fun network =>
    group.fields.map fun field => ⟨group, network, field⟩

namespace Visit

variable (v : Visit) (plan : Plan) (records : Records)

def subject : Subject := ⟨v.network.key, v.field.key, v.field.name⟩

/-- What the tables of the deployment file hold under the key of the network. -/
def value? : Option Value :=
  match records.deployments.lookup "deployment".toList with
  | some (.table networks) =>
    match networks.lookup v.network.key with
    | some (.table entries) => entries.lookup v.field.key
    | _ => none
  | _ => none

/-- The three values in lower case; of the deployment file a string as it stands, anything else as it is
displayed. -/
def deployed : Text :=
  match v.value? records with
  | none => []
  | some (.scalar (.string s)) => Text.lower s
  | some value => Text.lower value.text

def listed : Text :=
  match records.sources.find? fun (path, _) => Path.same v.group.source path with
  | none => []
  | some (_, text) => Text.lower (((SourceTable.read text v.network.constant).lookup v.field.name).getD [])

def documented (header : Text) : Text :=
  Text.lower (((Documentation.read records.documentation header).lookup v.field.name).getD [])

def block : List Finding :=
  Audit.compare v.subject (Audit.deployedReading plan records v.network v.field)
    (Audit.sourceReading records v.group v.network v.field ::
      Audit.documentedReadings records v.network v.field)

/-- All that there could be to say of a visit. -/
def possible : List Finding :=
  .absent v.subject (.deployments plan.deploymentName) :: .absent v.subject (.source v.group.source) ::
    (v.network.header.toList.map fun header => .absent v.subject (.documentation header)) ++
  .conflict v.subject (.source v.group.source) (v.deployed records) (v.listed records) ::
    v.network.header.toList.map fun header =>
      .conflict v.subject (.documentation header) (v.deployed records) (v.documented records header)

/-- What a block says, and that it says nothing else. -/
structure Accounted (findings : List Finding) : Prop where
  deployed_absent : .absent v.subject (.deployments plan.deploymentName) ∈ findings ↔
    (∀ value, ¬ records.Deploys v.network.key v.field.key value) ∨
      records.Deploys v.network.key v.field.key (.string [])
  source_absent : .absent v.subject (.source v.group.source) ∈ findings ↔ v.listed records = []
  documentation_absent : ∀ header, .absent v.subject (.documentation header) ∈ findings ↔
    v.network.header = some header ∧ v.documented records header = []
  source_conflict : .conflict v.subject (.source v.group.source) (v.deployed records) (v.listed records) ∈
      findings ↔
    v.deployed records ≠ [] ∧ v.listed records ≠ [] ∧ v.deployed records ≠ v.listed records
  documentation_conflict : ∀ header, .conflict v.subject (.documentation header) (v.deployed records)
      (v.documented records header) ∈ findings ↔
    v.network.header = some header ∧ v.deployed records ≠ [] ∧ v.documented records header ≠ [] ∧
      v.deployed records ≠ v.documented records header
  ordered : findings.Sublist (v.possible plan records)
  nodup : findings.Nodup
  separate : ∀ record x y, .absent v.subject record ∈ findings → .conflict v.subject record x y ∉ findings
  length_le : findings.length ≤ 3
  length_le_of_no_header : v.network.header = none → findings.length ≤ 2
  conflict_values : ∀ subject record x y, .conflict subject record x y ∈ findings →
    x ≠ [] ∧ y ≠ [] ∧ x ≠ y ∧ Address.Canonical y

theorem value?_eq_some_iff {value : Value} : v.value? records = some value ↔
    records.Deploys v.network.key v.field.key value := by
  unfold value? Records.Deploys
  split
  · next networks hnetworks =>
    split
    · next entries hnetwork =>
      refine ⟨fun hkey => ⟨networks, entries, hnetworks, hnetwork, hkey⟩, ?_⟩
      rintro ⟨_, _, hnetworks', hnetwork', hkey⟩
      obtain rfl := Value.table.inj (Option.some.inj (hnetworks.symm.trans hnetworks'))
      obtain rfl := Value.table.inj (Option.some.inj (hnetwork.symm.trans hnetwork'))
      exact hkey
    · next hnone =>
      refine iff_of_false (by simp) ?_
      rintro ⟨_, entries, hnetworks', hnetwork, -⟩
      obtain rfl := Value.table.inj (Option.some.inj (hnetworks.symm.trans hnetworks'))
      exact hnone entries hnetwork
  · next hnone =>
    refine iff_of_false (by simp) ?_
    rintro ⟨networks, _, hnetworks, -⟩
    exact hnone networks hnetworks

theorem value?_eq_none_iff : v.value? records = none ↔
    ∀ value, ¬ records.Deploys v.network.key v.field.key value := by
  simp only [Option.eq_none_iff_forall_ne_some, ne_eq, value?_eq_some_iff]

theorem deployed_eq : v.deployed records = (Audit.deployedReading plan records v.network v.field).value := by
  unfold deployed Audit.deployedReading
  cases hvalue : v.value? records with
  | none => exact (Audit.deployedValue_of_absent ((v.value?_eq_none_iff records).mp hvalue)).symm
  | some value =>
    rw [Audit.deployedValue_of_deploys ((v.value?_eq_some_iff records).mp hvalue)]
    split
    · next h => cases h
    · next h =>
      cases h
      rfl
    · next h =>
      cases h
      rfl

theorem listed_eq : v.listed records = (Audit.sourceReading records v.group v.network v.field).value := by
  unfold listed Audit.sourceReading Records.source
  cases records.sources.find? fun (path, _) => Path.same v.group.source path <;> rfl

theorem listed_eq_get : v.listed records =
    (SourceTable.read (records.source v.group.source) v.network.constant).get v.field.name :=
  (v.listed_eq records).trans (Audit.listedValue_eq (SourceTable.sound_read _ _) _)

theorem documented_eq_get (header : Text) :
    v.documented records header = (Documentation.read records.documentation header).get v.field.name :=
  Audit.listedValue_eq (Documentation.sound_read _ _) _

theorem deployed_eq_nil_iff : v.deployed records = [] ↔
    (∀ value, ¬ records.Deploys v.network.key v.field.key value) ∨
      records.Deploys v.network.key v.field.key (.string []) := by
  rw [← value?_eq_none_iff, ← value?_eq_some_iff, deployed]
  split
  · next h => simp [h]
  · next s h => simp [h, Value.string, Text.lower_eq_nil_iff]
  · next value hstring h => simp [h, Text.lower_eq_nil_iff, Value.text_eq_nil_iff]

def others : List Audit.Reading :=
  ⟨.source v.group.source, v.listed records⟩ ::
    v.network.header.toList.map fun header => ⟨.documentation header, v.documented records header⟩

theorem block_eq : v.block plan records = Audit.compare v.subject
    ⟨.deployments plan.deploymentName, v.deployed records⟩ (v.others records) := by
  rw [block, others, v.listed_eq records, v.deployed_eq plan records]
  rfl

theorem possible_nodup : (v.possible plan records).Nodup := by
  rw [possible]
  cases v.network.header <;> simp

theorem block_sublist : (v.block plan records).Sublist (v.possible plan records) := by
  have h := Audit.compare_sublist v.subject ⟨.deployments plan.deploymentName, v.deployed records⟩
    (v.others records)
  rw [block_eq]
  simpa only [possible, others, List.map_cons, List.map_map, Function.comp_def] using h

theorem mem_others {reading : Audit.Reading} : reading ∈ v.others records ↔
    reading = ⟨.source v.group.source, v.listed records⟩ ∨ ∃ header, v.network.header = some header ∧
      reading = ⟨.documentation header, v.documented records header⟩ := by
  simp [others, eq_comm]

/-- Every record is read once. -/
theorem eq_of_record {a b : Audit.Reading}
    (ha : a ∈ ⟨.deployments plan.deploymentName, v.deployed records⟩ :: v.others records)
    (hb : b ∈ v.others records) (h : a.record = b.record) : a = b := by
  rw [List.mem_cons, mem_others] at ha
  rw [mem_others] at hb
  rcases ha with rfl | rfl | ⟨header, hheader, rfl⟩ <;> rcases hb with rfl | ⟨other, hother, rfl⟩
  · cases h
  · cases h
  · rfl
  · cases h
  · cases h
  · obtain rfl := Option.some.inj (hheader.symm.trans hother)
    rfl

theorem others_range {reading : Audit.Reading} (h : reading ∈ v.others records) :
    reading.value = [] ∨ Address.Canonical reading.value := by
  rcases (v.mem_others records).mp h with rfl | ⟨header, -, rfl⟩
  · rw [listed_eq_get]
    exact (SourceTable.sound_read _ _).get_range _
  · rw [documented_eq_get]
    exact (Documentation.sound_read _ _).get_range _

theorem length_block_le : (v.block plan records).length ≤ v.network.header.toList.length + 2 := by
  rw [block_eq]
  have h := Audit.length_compare_le v.subject ⟨.deployments plan.deploymentName, v.deployed records⟩
    (v.others records)
  simpa [others] using h

theorem absent_mem_block {record : Record} : .absent v.subject record ∈ v.block plan records ↔
    ∃ reading ∈ ⟨.deployments plan.deploymentName, v.deployed records⟩ :: v.others records,
      reading.record = record ∧ reading.value = [] := by
  rw [block_eq, Audit.mem_compare_absent]

theorem conflict_mem_block {record : Record} {x y : Text} :
    .conflict v.subject record x y ∈ v.block plan records ↔
      ∃ reading ∈ v.others records, reading.record = record ∧
        (x = v.deployed records ∧ y = reading.value) ∧ x ≠ [] ∧ y ≠ [] ∧ x ≠ y := by
  rw [block_eq, Audit.mem_compare_conflict]

theorem accounted_block : v.Accounted plan records (v.block plan records) where
  deployed_absent := by
    rw [absent_mem_block, ← deployed_eq_nil_iff]
    simp [others]
  source_absent := by
    rw [absent_mem_block]
    simp [others]
  documentation_absent header := by
    rw [absent_mem_block]
    simp [others]
  source_conflict := by
    rw [conflict_mem_block]
    simp [others]
  documentation_conflict header := by
    rw [conflict_mem_block]
    simp [others]
  ordered := v.block_sublist plan records
  nodup := (v.possible_nodup plan records).sublist (v.block_sublist plan records)
  separate record x y := by
    -- one record has one reading, which is empty or is not
    rw [absent_mem_block, conflict_mem_block]
    rintro ⟨a, ha, hrecord, hnil⟩ ⟨b, hb, hrecord', ⟨-, rfl⟩, -, hne, -⟩
    exact hne (v.eq_of_record plan records ha hb (hrecord.trans hrecord'.symm) ▸ hnil)
  length_le := by
    have h := v.length_block_le plan records
    cases hheader : v.network.header with
    | none => simp only [hheader, Option.toList_none, List.length_nil] at h; omega
    | some header => simpa [hheader] using h
  length_le_of_no_header hnone := by simpa [hnone] using v.length_block_le plan records
  conflict_values subject record x y h := by
    rw [block_eq, Audit.mem_compare] at h
    rcases h with ⟨_, _, _, he⟩ | ⟨reading, hmem, ⟨hx, hy, hxy⟩, he⟩
    · cases he
    · obtain ⟨-, -, rfl, rfl⟩ := Finding.conflict.inj he
      exact ⟨hx, hy, hxy, (v.others_range records hmem).resolve_left hy⟩

end Visit

/-- A report is the placeholders, in the order of their lines, and then the blocks of the visits, none of
which is left out; each block is accounted for by the values of its own visit. -/
theorem report_accounted (plan : Plan) (records : Records) :
    (plan.audit records).findings =
      ((Text.lines records.documentation).filter (Text.contains "TODO".toList)).map .placeholder ++
        plan.visits.flatMap (fun v => v.block plan records) ∧
    ∀ v ∈ plan.visits, v.Accounted plan records (v.block plan records) := by
  refine ⟨?_, fun v _ => v.accounted_block plan records⟩
  simp only [Plan.audit, Plan.visits, Audit.ofNetwork_eq, List.flatMap_assoc, List.flatMap_map]
  rfl

def disputedGroup : Group :=
  ⟨"zkc".toList, "zkc.rs".toList, [Plan.network "base" "BASE" (some "### Base")],
    [Plan.field "zkc" "zkc_address", Plan.field "vezkc" "vezkc_address"]⟩

def disputedPlan : Plan := ⟨"d.toml".toList, "d.md".toList, [disputedGroup]⟩

def disputedRecords : Records where
  deployments := [("deployment".toList, .table [("base".toList, .table
    [("zkc".toList, .string "0xAA000000000000000000000000000000000000AA".toList),
     ("vezkc".toList, .scalar (.boolean true))])])]
  sources := [("zkc.rs".toList, ("pub const BASE: Deployment = Deployment \x7b zkc_address: " ++
    "address!(\"0xBB000000000000000000000000000000000000BB\"), vezkc_address: None, \x7d;").toList)]
  documentation := ("### Base\nZKC: 0xaa000000000000000000000000000000000000aa (TODO)\n" ++
    "veZKC: 0xCC000000000000000000000000000000000000CC").toList

def disputedVisit : Visit :=
  ⟨disputedGroup, Plan.network "base" "BASE" (some "### Base"), Plan.field "zkc" "zkc_address"⟩

theorem disputed_accounted :
    let deployed := "0xaa000000000000000000000000000000000000aa".toList
    let listed := "0xbb000000000000000000000000000000000000bb".toList
    let other : Subject := ⟨"base".toList, "vezkc".toList, "vezkc_address".toList⟩
    (disputedPlan.audit disputedRecords).findings =
      [.placeholder "ZKC: 0xaa000000000000000000000000000000000000aa (TODO)".toList,
       .conflict disputedVisit.subject (.source "zkc.rs".toList) deployed listed,
       .absent other (.source "zkc.rs".toList),
       .conflict other (.documentation "### Base".toList) "true".toList
         "0xcc000000000000000000000000000000000000cc".toList] ∧
    disputedVisit ∈ disputedPlan.visits ∧
    disputedVisit.deployed disputedRecords = deployed ∧ disputedVisit.listed disputedRecords = listed ∧
    .conflict disputedVisit.subject (.source "zkc.rs".toList) deployed listed ∈
      disputedVisit.block disputedPlan disputedRecords ∧
    .absent disputedVisit.subject (.deployments "d.toml".toList) ∉
      disputedVisit.block disputedPlan disputedRecords := by
  have hvisit : disputedVisit ∈ disputedPlan.visits := List.mem_cons_self
  have hdeployed : disputedVisit.deployed disputedRecords =
      "0xaa000000000000000000000000000000000000aa".toList := by decide +kernel
  have hlisted : disputedVisit.listed disputedRecords =
      "0xbb000000000000000000000000000000000000bb".toList := by decide +kernel
  have hdeploys : disputedRecords.Deploys "base".toList "zkc".toList
      (.string "0xAA000000000000000000000000000000000000AA".toList) := ⟨_, _, rfl, rfl, rfl⟩
  have haccounted := (report_accounted disputedPlan disputedRecords).2 disputedVisit hvisit
  have hconflict := haccounted.source_conflict
  rw [hdeployed, hlisted] at hconflict
  refine ⟨by decide +kernel, hvisit, hdeployed, hlisted, hconflict.mpr (by decide), fun hmem => ?_⟩
  rcases haccounted.deployed_absent.mp hmem with hnone | hempty
  · exact hnone _ hdeploys
  · cases hdeploys.unique hempty

end DeploymentRecords
