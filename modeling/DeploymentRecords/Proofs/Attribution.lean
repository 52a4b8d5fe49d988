import DeploymentRecords.Audit
import DeploymentRecords.Proofs.Untouched

/-! # Findings and the records they name

A change of one record changes only the findings that name it. Two audits of the same plan are
compared: what is left of them without the findings on the changed record is the same, in the same
order, wherever in the plan the record is consulted. -/

namespace DeploymentRecords

open Files Toml

namespace Record

/-- The source file at a path, however the path is spelt. -/
def isSource (path : Path) : Record → Bool
  | source other => Path.same path other
  | _ => false

def isDocumentation : Record → Bool
  | documentation _ => true
  | _ => false

end Record

namespace Finding

def onField (test : Subject → Record → Bool) : Finding → Bool
  | absent subject record => test subject record
  | conflict subject record _ _ => test subject record
  | placeholder _ => false

def namesSource (path : Path) : Finding → Bool := onField fun _ record => record.isSource path

/-- The finding comes from the documentation, as a placeholder or as the record that it names. -/
def namesDocumentation (finding : Finding) : Bool :=
  finding.isPlaceholder || finding.onField fun _ record => record.isDocumentation

def namesKey (network key : Text) : Finding → Bool :=
  onField fun subject _ => subject.network = network ∧ subject.key = key

end Finding

namespace Audit

def without (test : Finding → Bool) (audit : Audit) : List Finding :=
  audit.findings.filter fun finding => !test finding

variable {test : Finding → Bool} {subject : Subject} {deployed deployed' : Reading}
  {others others' : List Reading}

theorem filter_flatMap_readings {drop : Record → Bool} {findings : Reading → List Finding}
    (h : ∀ reading, ∀ finding ∈ findings reading, test finding = drop reading.record)
    (readings : List Reading) :
    (readings.flatMap findings).filter (fun finding => !test finding) =
      (readings.filter fun reading => !drop reading.record).flatMap findings := by
  induction readings with
  | nil => rfl
  | cons reading readings ih =>
    rw [List.flatMap_cons, List.filter_append, ih]
    cases hdrop : drop reading.record with
    | true =>
      rw [List.filter_cons_of_neg (by simp [hdrop]), List.filter_eq_nil_iff.mpr, List.nil_append]
      intro finding hfinding
      simp [h reading finding hfinding, hdrop]
    | false =>
      rw [List.filter_cons_of_pos (by simp [hdrop]), List.filter_eq_self.mpr, List.flatMap_cons]
      intro finding hfinding
      simp [h reading finding hfinding, hdrop]

/-- Without the findings on some records nothing is left but what the other readings say. -/
theorem filter_compare (drop : Record → Bool)
    (habsent : ∀ record, test (.absent subject record) = drop record)
    (hconflict : ∀ record x y, test (.conflict subject record x y) = drop record) :
    (compare subject deployed others).filter (fun finding => !test finding) =
      ((deployed :: others).filter fun reading => !drop reading.record).flatMap (absences subject) ++
        (others.filter fun reading => !drop reading.record).flatMap
          (conflicts subject deployed.value) := by
  rw [compare, List.filter_append, filter_flatMap_readings, filter_flatMap_readings]
  · intro reading finding hfinding
    unfold conflicts at hfinding
    split at hfinding
    · rw [List.mem_singleton.mp hfinding, hconflict]
    · cases hfinding
  · intro reading finding hfinding
    unfold absences at hfinding
    split at hfinding
    · rw [List.mem_singleton.mp hfinding, habsent]
    · cases hfinding

theorem filter_compare_congr (drop : Record → Bool)
    (habsent : ∀ record, test (.absent subject record) = drop record)
    (hconflict : ∀ record x y, test (.conflict subject record x y) = drop record)
    (hothers : (others.filter fun reading => !drop reading.record) =
      others'.filter fun reading => !drop reading.record) :
    (compare subject deployed others).filter (fun finding => !test finding) =
      (compare subject deployed others').filter fun finding => !test finding := by
  rw [filter_compare drop habsent hconflict, filter_compare drop habsent hconflict, List.filter_cons,
    List.filter_cons, hothers]

theorem filter_compare_eq_nil (habsent : ∀ record, test (.absent subject record) = true)
    (hconflict : ∀ record x y, test (.conflict subject record x y) = true) :
    (compare subject deployed others).filter (fun finding => !test finding) = [] := by
  rw [filter_compare (fun _ => true) habsent hconflict, List.filter_eq_nil_iff.mpr (by simp),
    List.filter_eq_nil_iff.mpr (by simp)]
  rfl

variable {plan : Plan} {a b : Records} {group : Group} {network : Network}

def deployedReading (plan : Plan) (records : Records) (network : Network) (field : TrackedField) :
    Reading :=
  ⟨.deployments plan.deploymentName, deployedValue (records.section? network.key) field.key⟩

def sourceReading (records : Records) (group : Group) (network : Network) (field : TrackedField) :
    Reading :=
  ⟨.source group.source,
    listedValue (SourceTable.read (records.source group.source) network.constant) field.name⟩

def documentedReadings (records : Records) (network : Network) (field : TrackedField) :
    List Reading :=
  network.header.toList.map fun header =>
    ⟨.documentation header, listedValue (Documentation.read records.documentation header) field.name⟩

theorem ofNetwork_eq (plan : Plan) (records : Records) (group : Group) (network : Network) :
    ofNetwork plan records group network = group.fields.flatMap fun field =>
      compare ⟨network.key, field.key, field.name⟩ (deployedReading plan records network field)
        (sourceReading records group network field :: documentedReadings records network field) := by
  unfold ofNetwork documentedReadings
  cases network.header <;> rfl

/-- Audits agree without some findings if they do on each field of each network. -/
theorem without_congr
    (hplaceholders : ((Documentation.placeholders a.documentation).map Finding.placeholder).filter
        (fun finding => !test finding) =
      ((Documentation.placeholders b.documentation).map .placeholder).filter fun finding => !test finding)
    (hfields : ∀ group network field,
      (compare ⟨network.key, field.key, field.name⟩ (deployedReading plan a network field)
          (sourceReading a group network field :: documentedReadings a network field)).filter
        (fun finding => !test finding) =
      (compare ⟨network.key, field.key, field.name⟩ (deployedReading plan b network field)
          (sourceReading b group network field :: documentedReadings b network field)).filter
        fun finding => !test finding) :
    (plan.audit a).without test = (plan.audit b).without test := by
  simp only [without, Plan.audit, ofNetwork_eq, List.filter_append, List.filter_flatMap, hplaceholders,
    hfields]

/-- What an audit says of a network depends on the values and tables that it compares. -/
theorem ofNetwork_congr
    (hdeployed : ∀ key, deployedValue (a.section? network.key) key =
      deployedValue (b.section? network.key) key)
    (hsource : SourceTable.read (a.source group.source) network.constant =
      SourceTable.read (b.source group.source) network.constant)
    (hdocumented : ∀ header, network.header = some header →
      Documentation.read a.documentation header = Documentation.read b.documentation header) :
    ofNetwork plan a group network = ofNetwork plan b group network := by
  have hlisted : ∀ field, documentedReadings a network field = documentedReadings b network field := by
    intro field
    unfold documentedReadings
    exact List.map_congr_left fun header hheader => by
      rw [hdocumented header (Option.mem_toList.mp hheader)]
  simp only [ofNetwork_eq, deployedReading, sourceReading, hdeployed, hsource, hlisted]

theorem deployedReading_congr {field : TrackedField} (h : a.deployments = b.deployments) :
    deployedReading plan a network field = deployedReading plan b network field := by
  unfold deployedReading Records.section?
  rw [h]

theorem documentedReadings_congr {field : TrackedField} (h : a.documentation = b.documentation) :
    documentedReadings a network field = documentedReadings b network field := by
  unfold documentedReadings
  rw [h]

theorem sourceReading_congr {field : TrackedField} (h : a.source group.source = b.source group.source) :
    sourceReading a group network field = sourceReading b group network field := by
  unfold sourceReading
  rw [h]

end Audit

namespace Records

variable {a b : Records} {keys : List Text} {network : Text}

theorem sections_of_sameBut
    (h : Value.SameBut keys [Plan.networksKey, network] (.table a.deployments) (.table b.deployments)) :
    (∀ other, other ≠ network → a.section? other = b.section? other) ∧
      ∃ entries entries', a.section? network = some entries ∧ b.section? network = some entries' ∧
        ∀ key, key ∉ keys → entries'.lookup key = entries.lookup key := by
  obtain ⟨-, -, -, v, w, hv, hw, hbelow⟩ := h
  obtain ⟨⟨networks, rfl⟩, ⟨networks', rfl⟩, hother, v, w, hv', hw', hbelow⟩ := hbelow
  obtain ⟨⟨entries, rfl⟩, ⟨entries', rfl⟩, hkeys⟩ := hbelow
  rw [Value.field?_table] at hv hw hv' hw'
  refine ⟨fun other hne => ?_, entries, entries', ?_, ?_, fun key hkey => hkeys key hkey⟩
  · have hlookup : networks'.lookup other = networks.lookup other := hother other hne
    simp only [section?, hv, hw, Option.bind_some, Value.asTable?, hlookup]
  · simp only [section?, hv, Option.bind_some, Value.asTable?, hv']
  · simp only [section?, hw, Option.bind_some, Value.asTable?, hw']

theorem deployedValue_of_sameBut {key : Text}
    (h : Value.SameBut [key] [Plan.networksKey, network] (.table a.deployments) (.table b.deployments))
    {network' key' : Text} (hne : ¬ (network' = network ∧ key' = key)) :
    Audit.deployedValue (a.section? network') key' = Audit.deployedValue (b.section? network') key' := by
  obtain ⟨hother, entries, entries', ha, hb, hkeys⟩ := sections_of_sameBut h
  by_cases hnetwork : network' = network
  · subst hnetwork
    have hkey : key' ∉ [key] := fun hm => hne ⟨rfl, List.mem_singleton.mp hm⟩
    rw [ha, hb, Audit.deployedValue, Audit.deployedValue, Option.getD_some, Option.getD_some,
      hkeys key' hkey]
  · rw [hother network' hnetwork]

end Records

section

open Audit

variable (plan : Plan) {a b : Records}

theorem source_congr (h : a.sources = b.sources) (path : Path) : a.source path = b.source path := by
  rw [Records.source, Records.source, h]

theorem without_source_congr {path : Path} (hdeployments : a.deployments = b.deployments)
    (hdocumentation : a.documentation = b.documentation)
    (hsources : ∀ other, Path.same path other = false → a.source other = b.source other) :
    (plan.audit a).without (Finding.namesSource path) =
      (plan.audit b).without (Finding.namesSource path) := by
  refine without_congr (by rw [hdocumentation]) fun group net field => ?_
  rw [deployedReading_congr hdeployments, documentedReadings_congr hdocumentation]
  refine filter_compare_congr (Record.isSource path) (fun _ => rfl) (fun _ _ _ => rfl) ?_
  -- the reading of a source file is dropped, or it is one that both records have
  cases hpath : Path.same path group.source with
  | true =>
    rw [List.filter_cons_of_neg (by simpa [Record.isSource, sourceReading] using hpath),
      List.filter_cons_of_neg (by simpa [Record.isSource, sourceReading] using hpath)]
  | false => rw [sourceReading_congr (hsources group.source hpath)]

theorem without_documentation_congr (hdeployments : a.deployments = b.deployments)
    (hsources : a.sources = b.sources) : (plan.audit a).without Finding.namesDocumentation =
      (plan.audit b).without Finding.namesDocumentation := by
  refine without_congr ?_ fun group net field => ?_
  · rw [List.filter_eq_nil_iff.mpr, List.filter_eq_nil_iff.mpr] <;>
      simp [Finding.namesDocumentation, Finding.isPlaceholder]
  · rw [deployedReading_congr hdeployments, sourceReading_congr (source_congr hsources group.source)]
    refine filter_compare_congr Record.isDocumentation (fun _ => rfl) (fun _ _ _ => rfl) ?_
    rw [List.filter_cons, List.filter_cons, List.filter_eq_nil_iff.mpr, List.filter_eq_nil_iff.mpr] <;>
      simp [documentedReadings, Record.isDocumentation]

theorem without_key_congr {network key : Text} (hsources : a.sources = b.sources)
    (hdocumentation : a.documentation = b.documentation)
    (hsame : Value.SameBut [key] [Plan.networksKey, network] (.table a.deployments)
      (.table b.deployments)) : (plan.audit a).without (Finding.namesKey network key) =
        (plan.audit b).without (Finding.namesKey network key) := by
  refine without_congr (by rw [hdocumentation]) fun group net field => ?_
  by_cases hfield : net.key = network ∧ field.key = key
  · have htest : decide (net.key = network ∧ field.key = key) = true := decide_eq_true hfield
    rw [filter_compare_eq_nil (fun _ => htest) fun _ _ _ => htest,
      filter_compare_eq_nil (fun _ => htest) fun _ _ _ => htest]
  · have hdeployed : deployedReading plan a net field = deployedReading plan b net field := by
      rw [deployedReading, deployedReading, Records.deployedValue_of_sameBut hsame hfield]
    rw [hdeployed, documentedReadings_congr hdocumentation,
      sourceReading_congr (source_congr hsources group.source)]

end

/-- Audits of records that differ in one source file, in the documentation, or in one entry of the
deployment file differ only in findings that name it. -/
theorem audits_agree_elsewhere (plan : Plan) (a b : Records) :
    (∀ path, a.deployments = b.deployments → a.documentation = b.documentation →
      (∀ other, Path.same path other = false → a.source other = b.source other) →
        (plan.audit a).without (Finding.namesSource path) =
          (plan.audit b).without (Finding.namesSource path)) ∧
    (a.deployments = b.deployments → a.sources = b.sources →
      (plan.audit a).without Finding.namesDocumentation =
        (plan.audit b).without Finding.namesDocumentation) ∧
    ∀ network key, a.sources = b.sources → a.documentation = b.documentation →
      Value.SameBut [key] [Plan.networksKey, network] (.table a.deployments) (.table b.deployments) →
        (plan.audit a).without (Finding.namesKey network key) =
          (plan.audit b).without (Finding.namesKey network key) :=
  ⟨fun _ => without_source_congr plan, without_documentation_congr plan,
    fun _ _ => without_key_congr plan⟩

theorem Value.field?_of_ne {name key : Text} (h : name ≠ key) {v w : Value}
    {entries : List (Text × Value)} :
    (Value.table ((key, v) :: entries)).field? name = (Value.table ((key, w) :: entries)).field? name := by
  rw [Value.field?_table, Value.field?_table, Value.lookup_cons, Value.lookup_cons, if_neg h, if_neg h]

def sharedPlan : Plan :=
  let group (name source : String) : Group :=
    ⟨name.toList, source.toList, [Plan.network "anvil" "ANVIL" (some "### Anvil")],
      [Plan.field "zkc" "zkc_address", Plan.field "vezkc" "vezkc_address"]⟩
  ⟨"d.toml".toList, "d.md".toList, [group "first" "a//b", group "second" "a/b"]⟩

def sharedRecords (zkc source documentation : String) : Records where
  deployments := [("deployment".toList, .table [("anvil".toList,
    .table [("zkc".toList, .string zkc.toList), ("vezkc".toList, .scalar (.boolean true))])])]
  sources := [("a/b".toList, source.toList)]
  documentation := documentation.toList

def ordinary : Records := sharedRecords "0x1" "" "### Anvil\nveZKC, ZKC: none"

def resourced : Records :=
  sharedRecords "0x1" ("pub const ANVIL: Deployment = Deployment \x7b zkc_address: " ++
    "address!(\"0xABCDEFabcdef0123456789ABCDEFabcdef012345\"), \x7d;") "### Anvil\nveZKC, ZKC: none"

def redocumented : Records :=
  sharedRecords "0x1" "" "### Anvil\nTODO ZKC: 0xABCDEFabcdef0123456789ABCDEFabcdef012345"

def redeployed : Records := sharedRecords "" "" "### Anvil\nveZKC, ZKC: none"

theorem shared_audits_agree_elsewhere :
    (sharedPlan.audit ordinary ≠ sharedPlan.audit resourced ∧
      (sharedPlan.audit ordinary).without (Finding.namesSource "a/./b".toList) =
        (sharedPlan.audit resourced).without (Finding.namesSource "a/./b".toList)) ∧
    (sharedPlan.audit ordinary ≠ sharedPlan.audit redocumented ∧
      (sharedPlan.audit ordinary).without Finding.namesDocumentation =
        (sharedPlan.audit redocumented).without Finding.namesDocumentation) ∧
    sharedPlan.audit ordinary ≠ sharedPlan.audit redeployed ∧
      (sharedPlan.audit ordinary).without (Finding.namesKey "anvil".toList "zkc".toList) =
        (sharedPlan.audit redeployed).without (Finding.namesKey "anvil".toList "zkc".toList) := by
  refine ⟨⟨by decide +kernel, (audits_agree_elsewhere _ _ _).1 _ rfl rfl fun other hother => ?_⟩,
    ⟨by decide +kernel, (audits_agree_elsewhere _ _ _).2.1 rfl rfl⟩,
    by decide +kernel, (audits_agree_elsewhere _ _ _).2.2 _ _ rfl rfl ?_⟩
  · have hnot : Path.same other "a/b".toList = false := by
      rw [Bool.eq_false_iff] at hother ⊢
      exact fun h => hother (Path.same_iff.mpr (Path.same_iff.mp h).symm)
    have hnone : ∀ zkc source documentation,
        (sharedRecords zkc source documentation).source other = [] := by
      intro zkc source documentation
      rw [Records.source, sharedRecords, List.find?_cons_of_neg (by simpa using hnot)]
      rfl
    exact (hnone _ _ _).trans (hnone _ _ _).symm
  · refine ⟨⟨_, rfl⟩, ⟨_, rfl⟩, fun name hname => Value.field?_of_ne hname, _, _, rfl, rfl, ⟨_, rfl⟩,
      ⟨_, rfl⟩, fun name hname => Value.field?_of_ne hname, _, _, rfl, rfl, ⟨_, rfl⟩, ⟨_, rfl⟩,
      fun name hname => Value.field?_of_ne fun e => hname (List.mem_singleton.mpr e)⟩

end DeploymentRecords
