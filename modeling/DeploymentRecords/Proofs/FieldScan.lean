import DeploymentRecords.Proofs.EntryLines
import DeploymentRecords.Proofs.Patterns

/-! # The scan of a block

The fields of a block are those that a plain scan from word to word finds, and those that a pattern with
greedy repetition matches: at each place all ways to match the pattern agree on the name of the field, on
its value up to white space at the ends, and on the comma behind which the scan goes on. -/

namespace DeploymentRecords.SourceTable

open Text

/-- The pattern `(\w+_address)\s*:\s*([^,]+),` -/
def fieldPattern : List Piece :=
  [.plus isWord, .fixed fieldSuffix, .star isBlank, .fixed [':'], .star isBlank, .plus (· ≠ ','), .fixed [',']]

def captured : List Text → Text × Text
  | [stem, suffix, _, _, _, value, _] => (stem ++ suffix, trim value)
  | _ => ([], [])

inductive Scanned : Text → List (Text × Text) → Prop
  | nil {s : Text} : IsEmpty (FieldPlace s) → Scanned s []
  | cons {s : Text} {found : List (Text × Text)} (p : FieldPlace s) : p.IsFirst → Scanned p.after found →
      Scanned s ((p.name, trim p.value) :: found)

variable {s next : Text} {parts : List Text} {found : List (Text × Text)}

/-- The scan of a text finds its fields with their values trimmed, and finds them only. -/
theorem scanned_iff : Scanned s found ↔ found = (fields s).map fun (name, value) => (name, trim value) := by
  constructor
  · intro h
    induction h with
    | nil hempty => rw [fields_eq_search, search?_eq_none_iff_isEmpty.mpr hempty, List.map_nil]
    | cons p hp _ ih => rw [fields_eq_search, hp.search?, List.map_cons, ih]
  · rintro rfl
    induction hn : s.length using Nat.strongRecOn generalizing s with
    | ind n ih =>
    subst hn
    rw [fields_eq_search]
    cases hsearch : search? readField? s with
    | none => exact .nil (search?_eq_none_iff_isEmpty.mp hsearch)
    | some field =>
      obtain ⟨p, hp, hname, hvalue, hafter⟩ :=
        exists_place_of_search? (show _ = some ((field.1.1, field.1.2), field.2) from hsearch)
      have hbehind := ih p.after.length p.length_after rfl
      rw [hafter] at hbehind
      simpa only [List.map_cons, hname, hvalue] using Scanned.cons p hp (hafter ▸ hbehind)

theorem forall₂_fieldPattern : List.Forall₂ Piece.Fits fieldPattern parts ↔
    ∃ stem gap lead value, parts = [stem, fieldSuffix, gap, [':'], lead, value, [',']] ∧ stem ≠ [] ∧
      (∀ c ∈ stem, isWord c = true) ∧ (∀ c ∈ gap, isBlank c = true) ∧ (∀ c ∈ lead, isBlank c = true) ∧
      value ≠ [] ∧ ',' ∉ value := by
  have hcomma : ∀ value : Text, (∀ c ∈ value, decide (c ≠ ',') = true) ↔ ',' ∉ value := by
    intro value
    simp only [decide_eq_true_eq]
    exact ⟨fun h hmem => h ',' hmem rfl, fun h c hc he => h (he ▸ hc)⟩
  simp only [fieldPattern, List.forall₂_cons_left_iff, List.forall₂_nil_left_iff, Piece.Fits, hcomma]
  constructor
  · rintro ⟨stem, _, ⟨hstem, hword⟩, ⟨_, _, rfl, ⟨gap, _, hgap, ⟨_, _, rfl, ⟨lead, _, hlead, ⟨value, _,
      ⟨hne, hvalue⟩, ⟨_, _, rfl, rfl, rfl⟩, rfl⟩, rfl⟩, rfl⟩, rfl⟩, rfl⟩, rfl⟩
    exact ⟨stem, gap, lead, value, rfl, hstem, hword, hgap, hlead, hne, hvalue⟩
  · rintro ⟨stem, gap, lead, value, rfl, hstem, hword, hgap, hlead, hne, hvalue⟩
    exact ⟨stem, _, ⟨hstem, hword⟩, ⟨_, _, rfl, ⟨gap, _, hgap, ⟨_, _, rfl, ⟨lead, _, hlead, ⟨value, _,
      ⟨hne, hvalue⟩, ⟨_, _, rfl, rfl, rfl⟩, rfl⟩, rfl⟩, rfl⟩, rfl⟩, rfl⟩, rfl⟩

theorem isWord_fieldSuffix : ∀ c ∈ fieldSuffix, isWord c = true := List.all_eq_true.mp (by decide +kernel)

/-- All ways to match the pattern at one place give the same field. -/
theorem readField?_of_mem_ways (h : (parts, next) ∈ ways fieldPattern s) : ∃ name value,
    readField? s = some ((name, value), next) ∧ captured parts = (name, trim value) := by
  obtain ⟨rfl, hparts⟩ := mem_ways.mp h
  obtain ⟨stem, gap, lead, value, rfl, hstem, hword, hgap, hlead, hne, hcomma⟩ := forall₂_fieldPattern.mp hparts
  have hname : ∀ c ∈ stem ++ fieldSuffix, isWord c = true :=
    List.forall_mem_append.mpr ⟨hword, isWord_fieldSuffix⟩
  have hvalue : ',' ∉ lead ++ value := by simp [comma_not_mem_of_blank hlead, hcomma]
  exact ⟨stem ++ fieldSuffix, lead ++ value, readField?_eq_some_iff.mpr ⟨gap, by simp,
    isFieldName_iff.mpr ⟨stem, hstem, rfl⟩, hname, hgap, by simp [hne], hvalue⟩, by rw [captured, trim_lead hlead]⟩

theorem exists_mem_ways {field : Text × Text} (h : readField? s = some (field, next)) :
    ∃ parts, (parts, next) ∈ ways fieldPattern s := by
  obtain ⟨gap, rfl, hfield, hword, hgap, hne, hcomma⟩ := readField?_eq_some_iff.mp h
  obtain ⟨stem, hstem, hname⟩ := isFieldName_iff.mp hfield
  rw [hname, List.forall_mem_append] at hword
  exact ⟨[stem, fieldSuffix, gap, [':'], [], field.2, [',']], mem_ways.mpr ⟨by simp [hname],
    forall₂_fieldPattern.mpr ⟨stem, gap, [], field.2, rfl, hstem, hword.1, hgap, List.forall_mem_nil _, hne, hcomma⟩⟩⟩

theorem matchHere?_fieldPattern (s : Text) :
    (matchHere? fieldPattern s).map (fun (parts, next) => (captured parts, next)) =
      (readField? s).map fun ((name, value), next) => ((name, trim value), next) := by
  cases hmatch : matchHere? fieldPattern s with
  | none =>
    cases hread : readField? s with
    | none => rfl
    | some found =>
      obtain ⟨parts, hparts⟩ := exists_mem_ways (show _ = some (found.1, found.2) from hread)
      exact absurd hparts (matchHere?_eq_none_iff.mp hmatch parts found.2)
  | some found =>
    obtain ⟨parts, next⟩ := found
    obtain ⟨name, value, hread, hcaptured⟩ := readField?_of_mem_ways (mem_ways_of_matchHere? hmatch)
    simp only [hread, Option.map_some, hcaptured]

/-- The matches of the pattern are the fields, their values trimmed. -/
theorem matchAll_fieldPattern (s : Text) :
    (matchAll fieldPattern s).map captured = (fields s).map fun (name, value) => (name, trim value) := by
  induction hn : s.length using Nat.strongRecOn generalizing s with
  | ind n ih =>
  subst hn
  have hsearch := congrFun (congrArg search? (funext matchHere?_fieldPattern)) s
  rw [search?_map, search?_map] at hsearch
  rw [matchAll, fields_eq_search]
  cases hread : search? readField? s with
  | none =>
    rw [hread, Option.map_none, Option.map_eq_none_iff] at hsearch
    rw [hsearch]
    rfl
  | some field =>
    obtain ⟨p, -, hname, hvalue, hafter⟩ :=
      exists_place_of_search? (show _ = some ((field.1.1, field.1.2), field.2) from hread)
    rw [hread, Option.map_some, Option.map_eq_some_iff] at hsearch
    obtain ⟨⟨parts, next⟩, hmatch, he⟩ := hsearch
    obtain ⟨hcaptured, rfl⟩ := Prod.mk.inj he
    have hlength : field.2.length < s.length := hafter ▸ p.length_after
    rw [hmatch]
    simp only [if_pos hlength, List.map_cons, hcaptured, ih _ hlength _ rfl]

theorem trim_trim (s : Text) : trim (trim s) = trim s := by
  have hstart : trimStart (trim s) = trim s := by
    obtain ⟨t, ht⟩ := prefix_trimEnd (trimStart s)
    have hstops := stops_dropWhile isBlank s
    rw [← trimStart, ← ht] at hstops
    exact dropWhile_run (w := []) (List.forall_mem_nil _) (stops_of_append hstops)
  rw [trim, hstart, trim, trimEnd_trimEnd]

theorem addressIn_trim (value : Text) : addressIn (trim value) = addressIn value := by
  rw [addressIn, addressIn, trim_trim]

/-- The table of a constant is what the scan of its block finds, entered from left to right, so that of
equal names the last counts. The scan finds one list of fields, and so does the pattern. -/
theorem read_scanned {content constant body : Text} (h : block? content constant = some body) :
    ∃ found, (∀ other, Scanned body other ↔ other = found) ∧
      (matchAll fieldPattern body).map captured = found ∧
      read content constant =
        found.foldl (fun table (name, value) => AddressTable.insert name (addressIn value) table) [] := by
  refine ⟨_, fun other => scanned_iff, matchAll_fieldPattern body, ?_⟩
  simp only [read, h, AddressTable.ofList, List.foldl_map, addressIn_trim]

/-- A bare suffix, an empty value, a path behind a name, a suffix that comes twice, white space for a value,
a name that comes again, and a value without a comma. -/
def crowdedBody : Text :=
  "_address:1, z_address:, a_address::b_address\n:9, x_address_address : ,\na_address\t:None, y_address:2".toList

def crowdedFields : List (Text × Text) :=
  [("a_address".toList, ":b_address\n:9".toList), ("x_address_address".toList, []),
   ("a_address".toList, "None".toList)]

theorem read_scanned_crowded :
    let content := "pub const BASE: Deployment = Deployment \x7b".toList ++ (crowdedBody ++ blockEnd)
    block? content "base".toList = some crowdedBody ∧ Scanned crowdedBody crowdedFields ∧
    (matchAll fieldPattern crowdedBody).map captured = crowdedFields ∧
    read content "base".toList = crowdedFields.foldl
      (fun table (name, value) => AddressTable.insert name (addressIn value) table) [] := by
  have hblock : block? ("pub const BASE: Deployment = Deployment \x7b".toList ++ (crowdedBody ++ blockEnd))
      "base".toList = some crowdedBody := by decide +kernel
  obtain ⟨found, hscan, hmatch, hread⟩ := read_scanned hblock
  have hfound : crowdedFields = found := hmatch ▸ by decide +kernel
  subst hfound
  exact ⟨hblock, (hscan _).mpr rfl, hmatch, hread⟩

end DeploymentRecords.SourceTable
