import DeploymentRecords.Proofs.FieldScan
import DeploymentRecords.Proofs.PrintedAudit

/-! # What every address table keeps

Whatever the text, the fields of a table ascend, and each has a canonical address, which the text spells in
some letter case, or none. Everything in a table is therefore in lower case already, and an audit may
look it up as it stands. -/

namespace DeploymentRecords

open Text Files

/-- The text spells the address, its digits in any letter case. -/
def Address.OccursIn (content address : Text) : Prop :=
  ∃ literal, literal <:+: content ∧ Written literal ∧ address = lower literal

namespace AddressTable

variable {table : AddressTable} {field address : Text}

theorem Sound.lookup_eq (h : table.Sound) (hmem : (field, address) ∈ table) :
    table.lookup field = some address :=
  lookup_of_mem (List.pairwise_map.mpr (h.ascending.imp fun hlt => ne_of_lt hlt)) hmem

end AddressTable

namespace SourceTable

variable {content constant field address : Text}

/-- An entry of a table comes from a place in the block of its constant. -/
theorem exists_place_of_mem_read (h : (field, address) ∈ read content constant) :
    ∃ body, block? content constant = some body ∧
      ∃ p : FieldPlace body, p.name = field ∧ addressIn p.value = address := by
  rw [read] at h
  split at h
  · cases h
  next body hblock =>
  obtain ⟨⟨name, value⟩, hfield, he⟩ := List.mem_map.mp (AddressTable.mem_of_mem_ofList h)
  obtain ⟨rfl, rfl⟩ := Prod.mk.inj he
  obtain ⟨p, hname, rfl⟩ := exists_place_of_mem_fields hfield
  exact ⟨body, hblock, p, hname, rfl⟩

end SourceTable

/-- An address that a call spells occurs in every text around the call. -/
theorem IsLiteral.occursIn {content literal address : Text} (h : IsLiteral literal address)
    (hin : literal <:+: content) : Address.OccursIn content address := by
  obtain ⟨lead, digits, trail, -, -, hlength, hdigits, rfl, rfl⟩ := h
  refine ⟨"0x".toList ++ digits, List.IsInfix.trans ?_ hin, ⟨digits, hlength, hdigits, rfl⟩, rfl⟩
  exact ⟨"address!(".toList ++ lead ++ ['"'], ['"'] ++ trail ++ [')'], by simp⟩

namespace Documentation

variable {content header inside field address : Text}

theorem infix_of_section? (h : section? content header = some inside) : inside <:+: content := by
  obtain ⟨before, found, rest, hfirst, hin⟩ := section?_eq_some_iff.mp h
  rcases hin.ended with rfl | ⟨after, rfl⟩
  · exact ⟨before ++ found, [], by rw [hfirst.split]; simp⟩
  · exact ⟨before ++ found, sectionEnd ++ after, by rw [hfirst.split]; simp⟩

theorem occursIn_of_mem_read (h : (field, address) ∈ read content header) (hne : address ≠ []) :
    Address.OccursIn content address := by
  obtain ⟨label, -, -, inside, hsection, l, -, rfl⟩ := exists_listing ((sound_read content header).lookup_eq h) hne
  refine ⟨l.literal, List.IsInfix.trans ?_ (infix_of_section? hsection), l.written, rfl⟩
  exact ⟨l.before ++ (label.name ++ l.gap), l.after, by simpa using l.split.symm⟩

end Documentation

/-- The audit that compares the addresses of the tables as they stand there. -/
def Plan.verbatimAudit (plan : Plan) (records : Records) : Audit :=
  ⟨(Documentation.placeholders records.documentation).map .placeholder ++ plan.visits.flatMap fun v =>
    Audit.compare v.subject ⟨.deployments plan.deploymentName, v.deployed records⟩
      (⟨.source v.group.source,
          (SourceTable.read (records.source v.group.source) v.network.constant).get v.field.name⟩ ::
        v.network.header.toList.map fun header =>
          ⟨.documentation header, (Documentation.read records.documentation header).get v.field.name⟩)⟩

theorem Plan.verbatimAudit_eq (plan : Plan) (records : Records) :
    plan.verbatimAudit records = plan.audit records := by
  have hfindings := plan.findings_audit records
  simp only [blocks, Visit.block_eq, Visit.others, Visit.listed_eq_get, Visit.documented_eq_get] at hfindings
  rw [verbatimAudit, ← hfindings]

/-- Every table of addresses is sound. A name in a table of a source file is a field name, a word before
the suffix; an address in it stands in a call between the colon of a field of that name and the next comma
of the block. Every address is spelt in the text it comes from. Lower case changes no address that is looked
up, so that an audit is the one that compares the addresses as they stand. -/
theorem tables_sound (content : Text) :
    (∀ constant, (SourceTable.read content constant).Sound ∧
      ∀ field address, (field, address) ∈ SourceTable.read content constant →
        (∃ stem, stem ≠ [] ∧ (∀ c ∈ stem, isWord c = true) ∧ field = stem ++ "_address".toList) ∧
        (address ≠ [] → Address.OccursIn content address ∧
          ∃ body, SourceTable.block? content constant = some body ∧ ∃ p : SourceTable.FieldPlace body,
            p.name = field ∧ ∃ literal, literal <:+: p.value ∧ IsLiteral literal address)) ∧
    (∀ header, (Documentation.read content header).Sound ∧
      ∀ field address, (field, address) ∈ Documentation.read content header → address ≠ [] →
        Address.OccursIn content address) ∧
    (∀ constant field, lower ((SourceTable.read content constant).get field) =
      (SourceTable.read content constant).get field) ∧
    (∀ header field, lower ((Documentation.read content header).get field) =
      (Documentation.read content header).get field) ∧
    ∀ (plan : Plan) (records : Records), plan.verbatimAudit records = plan.audit records := by
  refine ⟨fun constant => ⟨SourceTable.sound_read content constant, fun field address hmem => ?_⟩,
    fun header => ⟨Documentation.sound_read content header, fun field address => Documentation.occursIn_of_mem_read⟩,
    fun constant => (SourceTable.sound_read content constant).lower_get,
    fun header => (Documentation.sound_read content header).lower_get, Plan.verbatimAudit_eq⟩
  obtain ⟨body, hblock, p, rfl, rfl⟩ := SourceTable.exists_place_of_mem_read hmem
  constructor
  · obtain ⟨stem, hstem, hname⟩ := SourceTable.isFieldName_iff.mp p.name_field
    have hword := p.name_word
    rw [hname, List.forall_mem_append] at hword
    exact ⟨stem, hstem, hword.1, hname⟩
  · intro hne
    obtain ⟨literal, hin, hliteral⟩ := SourceTable.exists_literal_of_addressIn hne
    have hcontent := (hin.trans p.infix_value).trans (SourceTable.infix_of_block? hblock)
    exact ⟨hliteral.occursIn hcontent, body, hblock, p, rfl, literal, hin, hliteral⟩

/-- A source file whose comment reads as a page; the letter cases of the two addresses differ. -/
def annotatedSource : Text :=
  "// ### Base ZKC 0xABCDEFABCDEF0123456789abcdefabcdef012345\npub const BASE: Deployment = Deployment \x7b zkc_address: address!(\"0xabcdefabcdef0123456789ABCDEFABCDEF012345\"), \x7d;".toList

theorem tables_sound_annotated :
    let address := "0xabcdefabcdef0123456789abcdefabcdef012345".toList
    ("zkc_address".toList, address) ∈ SourceTable.read annotatedSource "base".toList ∧
    Address.OccursIn annotatedSource address ∧
    (∃ body, SourceTable.block? annotatedSource "base".toList = some body ∧ ∃ p : SourceTable.FieldPlace body,
      p.name = "zkc_address".toList ∧ ∃ literal, literal <:+: p.value ∧ IsLiteral literal address) ∧
    ("zkc_address".toList, address) ∈ Documentation.read annotatedSource "### base".toList := by
  have hsource : ("zkc_address".toList, "0xabcdefabcdef0123456789abcdefabcdef012345".toList) ∈
      SourceTable.read annotatedSource "base".toList := by decide +kernel
  have hpage : ("zkc_address".toList, "0xabcdefabcdef0123456789abcdefabcdef012345".toList) ∈
      Documentation.read annotatedSource "### base".toList := by decide +kernel
  have hplace := (((tables_sound annotatedSource).1 _).2 _ _ hsource).2 (by decide)
  exact ⟨hsource, ((tables_sound annotatedSource).2.1 _).2 _ _ hpage (by decide), hplace.2, hpage⟩

end DeploymentRecords
