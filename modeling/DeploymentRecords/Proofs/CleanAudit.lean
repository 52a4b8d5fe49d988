import DeploymentRecords.Audit
import DeploymentRecords.Proofs.AddressTables

/-! # Clean audits

An audit finds nothing exactly if no line of the documentation is a placeholder and every field of
every network is an address, as a string, on which the deployment file and the other records agree.
The tables of addresses hold canonical addresses only, so a value that equals one of them in lower
case spells an address; the display of a value that is no string never does. -/

namespace DeploymentRecords

open Files Toml Number

namespace Records

/-- The deployment file has a value under a key of a network, in the tables that lead there. -/
def Deploys (records : Records) (network key : Text) (v : Value) : Prop :=
  ∃ networks entries, records.deployments.lookup "deployment".toList = some (.table networks) ∧
    networks.lookup network = some (.table entries) ∧ entries.lookup key = some v

/-- A text is stored under a path; the first of several counts. -/
def Stores (records : Records) (path : Path) (text : Text) : Prop :=
  ∃ spelling, records.sources.find? (fun (p, _) => Path.same path p) = some (spelling, text)

end Records

/-- What the records have to say about a field of which nothing is reported: the deployment file
gives it the string `s`, which spells an address, and the others list that address. -/
structure Confirmed (records : Records) (group : Group) (network : Network) (field : TrackedField)
    (s : Text) : Prop where
  deployed : records.Deploys network.key field.key (.string s)
  spelled : Address.Spelled s
  listed : ∃ text, records.Stores group.source text ∧
    (SourceTable.read text network.constant).lookup field.name = some (Text.lower s)
  documented : ∀ header, network.header = some header →
    (Documentation.read records.documentation header).lookup field.name = some (Text.lower s)

namespace Records

variable {records : Records} {network key : Text} {v w : Value} {path : Path} {text : Text}

theorem deploys_iff : records.Deploys network key v ↔
    ∃ entries, records.section? network = some entries ∧ entries.lookup key = some v := by
  simp only [section?_eq_some_iff]
  constructor
  · rintro ⟨networks, entries, hnetworks, hnetwork, hkey⟩
    exact ⟨entries, ⟨networks, hnetworks, hnetwork⟩, hkey⟩
  · rintro ⟨entries, ⟨networks, hnetworks, hnetwork⟩, hkey⟩
    exact ⟨networks, entries, hnetworks, hnetwork, hkey⟩

theorem Deploys.unique (hv : records.Deploys network key v) (hw : records.Deploys network key w) : v = w := by
  obtain ⟨entries, hsection, hv⟩ := deploys_iff.mp hv
  obtain ⟨entries', hsection', hw⟩ := deploys_iff.mp hw
  obtain rfl := Option.some.inj (hsection.symm.trans hsection')
  exact Option.some.inj (hv.symm.trans hw)

theorem Stores.source_eq (h : records.Stores path text) : records.source path = text := by
  obtain ⟨_, h⟩ := h
  rw [source, h]
  rfl

theorem stores_source (h : records.source path ≠ []) : records.Stores path (records.source path) := by
  cases hfind : records.sources.find? (fun (p, _) => Path.same path p) with
  | none => exact absurd (by rw [source, hfind]; rfl) h
  | some entry => exact ⟨entry.1, by rw [hfind, source, hfind]; rfl⟩

end Records

theorem mem_decimal {n : Nat} {c : Char} (h : c ∈ decimal n) : c.isDigit = true :=
  Nat.isDigit_of_mem_toDigits (by decide) (by decide) h

theorem mem_positional {n : Nat} {u : Int} {c : Char} (h : c ∈ Binary64.positional n u) :
    c.isDigit = true ∨ c = '.' := by
  have hzeros : ∀ k, c ∈ List.replicate k '0' → c.isDigit = true := by
    intro k hc
    rw [List.eq_of_mem_replicate hc]
    decide
  simp only [Binary64.positional] at h
  split at h
  · simp only [List.mem_append, List.mem_cons, List.not_mem_nil, or_false] at h
    rcases h with (h | h) | rfl | rfl
    · exact Or.inl (mem_decimal h)
    · exact Or.inl (hzeros _ h)
    · exact Or.inr rfl
    · exact Or.inl (by decide)
  · have hdigits : ∀ k, c ∈ List.replicate k '0' ++ decimal n → c.isDigit = true := by
      intro k hc
      rcases List.mem_append.mp hc with hc | hc
      · exact hzeros _ hc
      · exact mem_decimal hc
    rcases List.mem_append.mp h with h | h
    · exact Or.inl (hdigits _ (List.mem_of_mem_take h))
    · rcases List.mem_cons.mp h with rfl | h
      · exact Or.inr rfl
      · exact Or.inl (hdigits _ (List.mem_of_mem_drop h))

/-- The second character of an address is its mark, which no number holds. -/
theorem Address.Spelled.mark_mem {s : Text} (h : Spelled s) : 'x' ∈ s ∨ 'X' ∈ s := by
  obtain ⟨mark, digits, hmark, -, -, rfl⟩ := h
  rcases hmark with rfl | rfl
  · exact Or.inl (by simp)
  · exact Or.inr (by simp)

theorem Address.Spelled.head {s : Text} (h : Spelled s) : s.head? = some '0' := by
  obtain ⟨mark, digits, -, -, -, rfl⟩ := h
  rfl

theorem not_spelled_signed (n : Int) : ¬ Address.Spelled (signed n) := by
  intro h
  have hchars : ∀ c ∈ signed n, c.isDigit = true ∨ c = '-' := by
    intro c hc
    unfold signed at hc
    split at hc
    · rcases List.mem_cons.mp hc with rfl | hc
      · exact Or.inr rfl
      · exact Or.inl (mem_decimal hc)
    · exact Or.inl (mem_decimal hc)
  rcases h.mark_mem with h | h
  · exact absurd (hchars _ h) (by decide)
  · exact absurd (hchars _ h) (by decide)

theorem not_spelled_float (x : Binary64) : ¬ Address.Spelled x.text := by
  intro h
  cases x with
  | nan => exact absurd h.head (by decide)
  | infinite negative => exact absurd h.head (by cases negative <;> decide)
  | finite negative m e =>
    have hchars : ∀ c ∈ (Binary64.finite negative m e).text,
        c.isDigit = true ∨ c = '.' ∨ c = '-' := by
      intro c hc
      simp only [Binary64.text, List.mem_append] at hc
      rcases hc with hc | hc
      · split at hc
        · exact Or.inr (Or.inr (by simpa using hc))
        · simp at hc
      · split at hc
        · simp only [List.mem_cons, List.not_mem_nil, or_false] at hc
          rcases hc with rfl | rfl | rfl <;> decide
        · exact (mem_positional hc).imp_right Or.inl
    rcases h.mark_mem with h | h
    · exact absurd (hchars _ h) (by decide)
    · exact absurd (hchars _ h) (by decide)

/-- Only a string is displayed as an address. -/
theorem eq_string_of_spelled {v : Value} (h : Address.Spelled v.text) :
    ∃ s, v = .string s ∧ Address.Spelled s := by
  have hhead := h.head
  match v with
  | .scalar (.string s) => exact ⟨s, rfl, h⟩
  | .scalar (.integer n) => exact absurd h (not_spelled_signed n)
  | .scalar (.float x) => exact absurd h (not_spelled_float x)
  | .scalar (.boolean true) => exact absurd hhead (by decide)
  | .scalar (.boolean false) => exact absurd hhead (by decide)
  | .scalar (.datetime d) => exact absurd hhead (by simp [Value.text, Value.inlineText])
  | .array elements => exact absurd hhead (by simp [Value.text, Value.inlineText])
  | .table [] => exact absurd hhead (by simp [Value.text, Value.inlineText])
  | .table (entry :: entries) => exact absurd hhead (by simp [Value.text, Value.inlineText])

namespace Audit

theorem compare_eq_nil_iff {subject : Subject} {deployed : Reading} {others : List Reading} :
    compare subject deployed others = [] ↔
      deployed.value ≠ [] ∧ ∀ other ∈ others, other.value ≠ [] ∧ deployed.value = other.value := by
  have habsent : ∀ reading, absences subject reading = [] ↔ reading.value ≠ [] := by
    intro reading
    unfold absences
    split <;> simp_all
  have hconflict : ∀ other, other.value ≠ [] → deployed.value ≠ [] →
      (conflicts subject deployed.value other = [] ↔ deployed.value = other.value) := by
    intro other ho hd
    unfold conflicts
    split
    · next h => simp [h.2.2]
    · next h => simpa [ho, hd] using h
  simp only [compare, List.append_eq_nil_iff, List.flatMap_eq_nil_iff, List.forall_mem_cons,
    habsent]
  constructor
  · rintro ⟨⟨hd, hothers⟩, hc⟩
    exact ⟨hd, fun other ho =>
      ⟨hothers other ho, (hconflict other (hothers other ho) hd).mp (hc other ho)⟩⟩
  · rintro ⟨hd, hothers⟩
    exact ⟨⟨hd, fun other ho => (hothers other ho).1⟩, fun other ho =>
      (hconflict other (hothers other ho).1 hd).mpr (hothers other ho).2⟩

variable {records : Records} {network key : Text} {v : Value}

theorem deployedValue_of_deploys (h : records.Deploys network key v) :
    deployedValue (records.section? network) key = Text.lower v.text := by
  obtain ⟨entries, hsection, hkey⟩ := Records.deploys_iff.mp h
  rw [deployedValue, hsection, Option.getD_some, hkey]
  rfl

theorem deployedValue_of_absent (h : ∀ v, ¬ records.Deploys network key v) :
    deployedValue (records.section? network) key = [] := by
  simp only [Records.deploys_iff, not_exists, not_and] at h
  cases hsection : records.section? network with
  | none => rfl
  | some entries =>
    have hkey : entries.lookup key = none := Option.eq_none_iff_forall_not_mem.mpr fun v => h v entries hsection
    rw [deployedValue, Option.getD_some, hkey]
    rfl

theorem deployed_string (h : Address.Canonical (deployedValue (records.section? network) key)) :
    ∃ s, records.Deploys network key (.string s) ∧ Address.Spelled s ∧
      deployedValue (records.section? network) key = Text.lower s := by
  by_cases hdeploys : ∃ v, records.Deploys network key v
  · obtain ⟨v, hv⟩ := hdeploys
    have hvalue := deployedValue_of_deploys hv
    rw [hvalue] at h
    obtain ⟨s, rfl, hs⟩ := eq_string_of_spelled (Address.canonical_lower_iff.mp h)
    exact ⟨s, hv, hs, hvalue⟩
  · exact absurd (deployedValue_of_absent (not_exists.mp hdeploys)) h.ne_nil

theorem listedValue_eq {table : AddressTable} (h : table.Sound) (field : Text) :
    listedValue table field = table.get field :=
  h.lower_get field

theorem lookup_of_listedValue {table : AddressTable} (h : table.Sound) {field address : Text}
    (hne : address ≠ []) (hvalue : listedValue table field = address) :
    table.lookup field = some address :=
  AddressTable.lookup_of_get hne (listedValue_eq h field ▸ hvalue)

theorem listedValue_of_lookup {table : AddressTable} (h : table.Sound) {field address : Text}
    (hlookup : table.lookup field = some address) : listedValue table field = address :=
  (listedValue_eq h field).trans (AddressTable.get_of_lookup hlookup)

theorem exists_stores_of_listed {path : Path} {constant field address : Text} (hne : address ≠ [])
    (h : listedValue (SourceTable.read (records.source path) constant) field = address) :
    ∃ text, records.Stores path text ∧ (SourceTable.read text constant).lookup field = some address := by
  have hlookup := lookup_of_listedValue (SourceTable.sound_read _ _) hne h
  refine ⟨_, Records.stores_source fun hnone => ?_, hlookup⟩
  rw [hnone] at hlookup
  cases hlookup

variable {plan : Plan} {group : Group} {net : Network} {field : TrackedField}

def Agreed (records : Records) (group : Group) (network : Network) (field : TrackedField) : Prop :=
  let deployed := deployedValue (records.section? network.key) field.key
  let listed := listedValue (SourceTable.read (records.source group.source) network.constant) field.name
  deployed ≠ [] ∧ (listed ≠ [] ∧ deployed = listed) ∧
    ∀ header, network.header = some header →
      let documented := listedValue (Documentation.read records.documentation header) field.name
      documented ≠ [] ∧ deployed = documented

theorem ofNetwork_eq_nil_iff : ofNetwork plan records group net = [] ↔
    ∀ field ∈ group.fields, Agreed records group net field := by
  simp only [ofNetwork, Agreed, List.flatMap_eq_nil_iff, compare_eq_nil_iff, List.forall_mem_cons]
  cases net.header <;> simp

theorem agreed_iff : Agreed records group net field ↔ ∃ s, Confirmed records group net field s := by
  constructor
  · rintro ⟨-, ⟨hlisted, hagree⟩, hdocs⟩
    -- the table of the source file holds canonical addresses only, and the value equals one
    have hcanonical : Address.Canonical (deployedValue (records.section? net.key) field.key) := by
      rw [hagree, listedValue_eq (SourceTable.sound_read _ _)] at *
      exact ((SourceTable.sound_read _ _).get_range _).resolve_left hlisted
    obtain ⟨s, hdeploys, hspelled, hlower⟩ := deployed_string hcanonical
    have hne : Text.lower s ≠ [] := hspelled.canonical_lower.ne_nil
    refine ⟨s, hdeploys, hspelled, exists_stores_of_listed hne (hagree.symm.trans hlower), fun header hheader => ?_⟩
    obtain ⟨-, heq⟩ := hdocs header hheader
    exact lookup_of_listedValue (Documentation.sound_read _ _) hne (heq.symm.trans hlower)
  · rintro ⟨s, hdeploys, hspelled, ⟨text, hstores, hlisted⟩, hdocumented⟩
    have hne : Text.lower s ≠ [] := hspelled.canonical_lower.ne_nil
    have hdeployed : deployedValue (records.section? net.key) field.key = Text.lower s :=
      deployedValue_of_deploys hdeploys
    have hsource := listedValue_of_lookup (SourceTable.sound_read _ _) hlisted
    unfold Agreed
    rw [hdeployed, hstores.source_eq, hsource]
    refine ⟨hne, ⟨hne, rfl⟩, fun header hheader => ?_⟩
    have hdocument := listedValue_of_lookup (Documentation.sound_read _ _) (hdocumented header hheader)
    dsimp only
    rw [hdocument]
    exact ⟨hne, rfl⟩

end Audit

theorem Documentation.placeholders_eq_nil_iff {content : Text} :
    placeholders content = [] ↔
      ∀ line ∈ Text.lines content, ∀ before after, line ≠ before ++ "TODO".toList ++ after := by
  simp only [placeholders, List.filter_eq_nil_iff, Text.contains_iff, placeholderMark, not_exists,
    ne_eq]

/-- A report is clean just if no line of the documentation holds a placeholder and every field of the plan
is confirmed: the deployment file has a string for it that spells an address, and the source file and, under
the header of the network, the documentation list the address. -/
theorem isClean_iff_confirmed (plan : Plan) (records : Records) :
    (plan.audit records).isClean = true ↔
      (∀ line ∈ Text.lines records.documentation,
        ∀ before after, line ≠ before ++ "TODO".toList ++ after) ∧
      ∀ group ∈ plan.groups, ∀ network ∈ group.networks, ∀ field ∈ group.fields,
        ∃ s, Confirmed records group network field s := by
  simp only [Audit.isClean, Plan.audit, List.isEmpty_iff, List.append_eq_nil_iff,
    List.map_eq_nil_iff, List.flatMap_eq_nil_iff, Documentation.placeholders_eq_nil_iff,
    Audit.ofNetwork_eq_nil_iff, Audit.agreed_iff]

def agreedGroup : Group :=
  ⟨"zkc".toList, "crates//zkc.rs".toList,
    [Plan.network "base" "Base" (some "### base"), Plan.network "anvil" "ANVIL" none],
    [Plan.field "zkc" "zkc_address"]⟩

def agreedPlan : Plan := ⟨"d.toml".toList, "d.md".toList, [agreedGroup]⟩

/-- Records in which each address is spelt in a letter case of its own. -/
def agreedRecords : Records where
  deployments := [("deployment".toList, .table
    [("base".toList, .table [("zkc".toList, .string "0XABCDEFabcdef0123456789ABCDEFabcdef012345".toList)]),
     ("anvil".toList, .table [("admin".toList, .scalar (.boolean true)),
       ("zkc".toList, .string "0x00000000000000000000000000000000000000FF".toList)])])]
  sources := [("crates/zkc.rs".toList,
    ("pub const BASE: Deployment = Deployment \x7b zkc_address: " ++
      "Some(address!(\"0xabcdefabcdef0123456789ABCDEFABCDEF012345\")), \x7d;\n" ++
      "pub const ANVIL: Deployment = Deployment \x7b zkc_address: " ++
      "address!(\"0x00000000000000000000000000000000000000fF\"), \x7d;").toList)]
  documentation := "### Base\nZKC: 0xABCDEFABCDEF0123456789abcdefabcdef012345".toList

theorem agreed_isClean : (agreedPlan.audit agreedRecords).isClean = true ∧
    Confirmed agreedRecords agreedGroup (Plan.network "base" "Base" (some "### base"))
      (Plan.field "zkc" "zkc_address") "0XABCDEFabcdef0123456789ABCDEFabcdef012345".toList ∧
    Confirmed agreedRecords agreedGroup (Plan.network "anvil" "ANVIL" none)
      (Plan.field "zkc" "zkc_address") "0x00000000000000000000000000000000000000FF".toList := by
  have hclean : (agreedPlan.audit agreedRecords).isClean = true := by decide +kernel
  have hconfirmed := ((isClean_iff_confirmed agreedPlan agreedRecords).mp hclean).2 agreedGroup
    (List.mem_singleton.mpr rfl)
  obtain ⟨s, hbase⟩ := hconfirmed _ List.mem_cons_self _ (List.mem_singleton.mpr rfl)
  obtain ⟨t, hanvil⟩ := hconfirmed _ (List.mem_cons_of_mem _ List.mem_cons_self) _ (List.mem_singleton.mpr rfl)
  have hs : Value.string s = _ := hbase.deployed.unique ⟨_, _, rfl, rfl, rfl⟩
  have ht : Value.string t = _ := hanvil.deployed.unique ⟨_, _, rfl, rfl, rfl⟩
  cases hs
  cases ht
  exact ⟨hclean, hbase, hanvil⟩

end DeploymentRecords
