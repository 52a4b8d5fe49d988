import DeploymentRecords.Command.Check
import DeploymentRecords.Proofs.Accounts
import DeploymentRecords.Proofs.Loading

/-! # The printed report

The check command goes over a report twice, for the placeholders and for all others, and takes the count
and the exit status from the whole. A report has its placeholders in front, so what is printed is the
report itself, in its own order. -/

namespace DeploymentRecords

open Files Toml

theorem Visit.isPlaceholder_of_mem_block {v : Visit} {plan : Plan} {records : Records} {finding : Finding}
    (h : finding ∈ v.block plan records) : finding.isPlaceholder = false := by
  rw [Visit.block_eq, Audit.mem_compare] at h
  rcases h with ⟨_, _, _, rfl⟩ | ⟨_, _, _, rfl⟩ <;> rfl

namespace Plan

variable (plan : Plan) (records : Records)

def blocks : List Finding := plan.visits.flatMap fun v => v.block plan records

theorem isPlaceholder_of_mem_blocks {finding : Finding} (h : finding ∈ plan.blocks records) :
    finding.isPlaceholder = false := by
  obtain ⟨v, -, hblock⟩ := List.mem_flatMap.mp h
  exact Visit.isPlaceholder_of_mem_block hblock

theorem findings_audit : (plan.audit records).findings =
    (Documentation.placeholders records.documentation).map .placeholder ++ plan.blocks records := by
  simp only [audit, blocks, visits, Audit.ofNetwork_eq, List.flatMap_assoc, List.flatMap_map]
  rfl

theorem placeholders_audit : (plan.audit records).placeholders =
    (Documentation.placeholders records.documentation).map .placeholder := by
  rw [Audit.placeholders, findings_audit, List.filter_append, List.filter_eq_self.mpr,
    List.filter_eq_nil_iff.mpr, List.append_nil]
  · intro finding hfinding
    simp [isPlaceholder_of_mem_blocks plan records hfinding]
  · intro finding hfinding
    obtain ⟨line, -, rfl⟩ := List.mem_map.mp hfinding
    rfl

theorem disagreements_eq_blocks : (plan.audit records).disagreements = plan.blocks records := by
  rw [Audit.disagreements, findings_audit, List.filter_append, List.filter_eq_nil_iff.mpr,
    List.filter_eq_self.mpr, List.nil_append]
  · intro finding hfinding
    simp [isPlaceholder_of_mem_blocks plan records hfinding]
  · intro finding hfinding
    obtain ⟨line, -, rfl⟩ := List.mem_map.mp hfinding
    simp [Finding.isPlaceholder]

/-- The two passes over a report meet each of its findings once, and in its order. -/
theorem placeholders_append_disagreements : (plan.audit records).placeholders ++
    (plan.audit records).disagreements = (plan.audit records).findings := by
  rw [placeholders_audit, disagreements_eq_blocks, findings_audit]

end Plan

namespace Command.Check

/-- A report in print: the findings in their order, one on each line, under a heading if there is a
placeholder, and behind a blank line their number; of no findings, the success line alone. -/
def printed (findings : List Finding) : Text :=
  if findings = [] then line success
  else
    (if ∃ finding ∈ findings, finding.isPlaceholder then line heading else []) ++
    (findings.flatMap fun finding => line finding.text) ++ '\n' :: line (verdict findings.length)

theorem printed_ne_nil (findings : List Finding) : printed findings ≠ [] := by
  unfold printed
  split <;> simp [line]

theorem isEmpty_placeholders (audit : Audit) :
    audit.placeholders.isEmpty = true ↔ ¬ ∃ finding ∈ audit.findings, finding.isPlaceholder := by
  simp [Audit.placeholders]

theorem auditText_plain {audit : Audit}
    (h : audit.placeholders ++ audit.disagreements = audit.findings) :
    auditText false audit = printed audit.findings := by
  have hpasses : (audit.placeholders.flatMap fun f => line f.text) ++
      (audit.disagreements.flatMap fun f => line f.text) = audit.findings.flatMap fun f => line f.text := by
    rw [← List.flatMap_append, h]
  have hstyle : ∀ style s, Style.apply false style s = s := fun _ _ => rfl
  simp only [auditText, hstyle, printed, isEmpty_placeholders, ite_not]
  rw [List.append_assoc _ (audit.placeholders.flatMap _), hpasses]
  by_cases hclean : audit.findings = []
  · simp [Audit.isClean, hclean]
  · simp [Audit.isClean, hclean]

/-- The plan and its records load from the working directory, and this is the report on them. -/
def Audited (tree : Tree) (audit : Audit) : Prop :=
  ∃ plan records, PlanFile.load tree here = .ok plan ∧ Records.load tree here plan = .ok records ∧
    audit = plan.audit records

variable {tree : Tree} {audit other : Audit}

theorem Audited.unique (h : Audited tree audit) (h' : Audited tree other) : audit = other := by
  obtain ⟨plan, records, hplan, hrecords, rfl⟩ := h
  obtain ⟨plan', records', hplan', hrecords', rfl⟩ := h'
  cases hplan.symm.trans hplan'
  cases hrecords.symm.trans hrecords'
  rfl

theorem command_of_audited (h : Audited tree audit) : command false [] tree =
    ⟨if audit.findings = [] then 0 else 1, printed audit.findings, [], tree⟩ := by
  obtain ⟨plan, records, hplan, hrecords, rfl⟩ := h
  have hrun : plan.auditFiles tree here = .ok (plan.audit records) := by
    rw [Plan.auditFiles, hrecords]
    rfl
  have hread : Request.read [] [] = .flags [] := rfl
  simp only [command, hread, run, hplan, hrun,
    auditText_plain (plan.placeholders_append_disagreements records)]
  simp [Audit.isClean, Outcome.success, Outcome.failure]

theorem command_of_not_audited (h : ¬ ∃ audit, Audited tree audit) :
    (command false [] tree).status = 1 ∧ (command false [] tree).stdout = [] := by
  have hread : Request.read [] [] = .flags [] := rfl
  simp only [command, hread, run]
  cases hplan : PlanFile.load tree here with
  | error failure => exact ⟨rfl, rfl⟩
  | ok plan =>
    cases hrecords : Records.load tree here plan with
    | error failure =>
      have haudit : plan.auditFiles tree here = .error failure := by
        rw [Plan.auditFiles, hrecords]
        rfl
      simp only [haudit]
      exact ⟨rfl, trivial⟩
    | ok records => exact absurd ⟨_, plan, records, hplan, hrecords, rfl⟩ h

/-- The check without arguments and without colour exits with 0 if the plan and its records load and the
report is clean, and with 1 otherwise. It prints nothing exactly if they do not load; if they do, it
prints the report: the two passes over the report of any records are that report. -/
theorem command_prints_report (tree : Tree) :
    ((command false [] tree).status = 0 ↔ ∃ audit, Audited tree audit ∧ audit.findings = []) ∧
    ((command false [] tree).status = 1 ↔ ¬ ∃ audit, Audited tree audit ∧ audit.findings = []) ∧
    ((command false [] tree).stdout = [] ↔ ¬ ∃ audit, Audited tree audit) ∧
    (∀ audit, Audited tree audit → (command false [] tree).stdout = printed audit.findings) ∧
    ∀ (plan : Plan) (records : Records), (plan.audit records).placeholders ++
      (plan.audit records).disagreements = (plan.audit records).findings := by
  by_cases hloads : ∃ audit, Audited tree audit
  · obtain ⟨audit, haudit⟩ := hloads
    have hclean : (∃ audit, Audited tree audit ∧ audit.findings = []) ↔ audit.findings = [] := by
      constructor
      · rintro ⟨other, hother, hnil⟩
        rwa [haudit.unique hother]
      · exact fun hnil => ⟨audit, haudit, hnil⟩
    rw [command_of_audited haudit, hclean]
    refine ⟨by simp, by simp, iff_of_false (printed_ne_nil _) (fun hnone => hnone ⟨audit, haudit⟩), ?_,
      Plan.placeholders_append_disagreements⟩
    intro other hother
    rw [haudit.unique hother]
  · have hclean : ¬ ∃ audit, Audited tree audit ∧ audit.findings = [] :=
      fun ⟨audit, haudit, _⟩ => hloads ⟨audit, haudit⟩
    obtain ⟨hstatus, hstdout⟩ := command_of_not_audited hloads
    rw [hstatus, hstdout]
    exact ⟨by simp [hclean], by simp [hclean], by simp [hloads], fun audit haudit =>
      absurd ⟨audit, haudit⟩ hloads, Plan.placeholders_append_disagreements⟩

def smallPlanText : Text :=
  ("deployment_toml = \"d.toml\"\ndocumentation = \"d.md\"\n" ++
    "groups = [[\"zkc\", \"s.rs\", [[\"n\", \"N\"]], [[\"zkc\", \"zkc_address\"]]]]\n").toList

def smallPlan : Plan where
  deployments := "d.toml".toList
  documentation := "d.md".toList
  groups := [⟨"zkc".toList, "s.rs".toList, [⟨"n".toList, "N".toList, none⟩],
    [⟨"zkc".toList, "zkc_address".toList⟩]⟩]

def smallDeployments : Text := "[deployment.n]\nzkc = \"0x1\"\n".toList

def smallPage : Text := "TODO one\nfine\nTODO two\n".toList

def smallRecords : Records where
  deployments := (Records.deploymentsOf? smallDeployments).getD []
  sources := [("s.rs".toList, [])]
  documentation := smallPage

def smallTree : Tree where
  nodes := [(⟨.working 0, [PlanFile.fileName]⟩, .file (Tree.encode smallPlanText)),
    (⟨.working 0, ["d.toml".toList]⟩, .file (Tree.encode smallDeployments)),
    (⟨.working 0, ["s.rs".toList]⟩, .file (Tree.encode [])),
    (⟨.working 0, ["d.md".toList]⟩, .file (Tree.encode smallPage))]

theorem smallTree_prints_report :
    Audited smallTree (smallPlan.audit smallRecords) ∧ (command false [] smallTree).status = 1 ∧
    (command false [] smallTree).stdout =
      ("❌ Found TODO placeholders in documentation:\n   TODO one\n   TODO two\n" ++
        "❌ Missing [n] zkc_address in s.rs\n" ++
        "\n❌ Found 3 issues. Please check inconsistencies or TODO placeholders.\n").toList := by
  have hplan : PlanFile.load smallTree here = .ok smallPlan := by
    have hpresent : smallTree.present (Path.join here PlanFile.fileName) := by decide +kernel
    have hread : smallTree.read (Path.join here PlanFile.fileName) = .ok smallPlanText :=
      Tree.read_of_readBytes (by rfl)
    have hopens : PlanFile.ofText? smallPlanText = some smallPlan := by decide +kernel
    simp only [PlanFile.load, hpresent, hread, hopens, not_true_eq_false, if_false]
  have hrecords : Records.load smallTree here smallPlan = .ok smallRecords := by
    have hdeployments : smallTree.read (Path.join here smallPlan.deployments) = .ok smallDeployments :=
      Tree.read_of_readBytes (by rfl)
    have hsource : smallTree.read (Path.join here "s.rs".toList) = .ok [] :=
      Tree.read_of_readBytes (by rfl)
    have hpage : smallTree.read (Path.join here smallPlan.documentation) = .ok smallPage :=
      Tree.read_of_readBytes (by rfl)
    have hopens : (Records.deploymentsOf? smallDeployments).isSome := by decide +kernel
    obtain ⟨deployments, hdeploymentsOf⟩ := Option.isSome_iff_exists.mp hopens
    have hsources : Records.readSources smallTree here smallPlan.sources = .ok smallRecords.sources := by
      have hlisted : smallPlan.sources = ["s.rs".toList] := by decide
      rw [hlisted, Records.readSources_cons, Records.readFile_eq_ok.mpr hsource]
      rfl
    rw [Records.load_eq, Records.readFile_eq_ok.mpr hdeployments, Records.readFile_eq_ok.mpr hpage]
    simp only [hdeploymentsOf, hsources, smallRecords, Option.getD_some]
    rfl
  have haudited : Audited smallTree (smallPlan.audit smallRecords) := ⟨_, _, hplan, hrecords, rfl⟩
  obtain ⟨-, hstatus, -, hstdout, -⟩ := command_prints_report smallTree
  have hfindings : (smallPlan.audit smallRecords).findings ≠ [] := by decide +kernel
  refine ⟨haudited, ?_, ?_⟩
  · rw [hstatus]
    rintro ⟨audit, haudit, hnil⟩
    exact hfindings (haudited.unique haudit ▸ hnil)
  · rw [hstdout _ haudited]
    decide +kernel

end Command.Check

end DeploymentRecords
