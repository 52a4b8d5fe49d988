import DeploymentRecords.Proofs.ConstantBlocks
import DeploymentRecords.Proofs.FieldPlaces
import DeploymentRecords.Proofs.Listings

/-! # Complete addresses

An address is complete where no further digit follows it. A source file writes its addresses between
quotes, so what is read from one is complete. A page has nothing that ends an address: of a longer
number the first forty digits are read, and the value is all of it exactly if it ends there. -/

namespace DeploymentRecords

open Text Number

namespace Address

/-- The text holds an address, read as `value`, behind whose last digit no other stands. -/
def WholeIn (content value : Text) : Prop :=
  ∃ before literal after, content = before ++ (literal ++ after) ∧ Written literal ∧
    Stops isHexDigit after ∧ value = lower literal

variable {content value s : Text}

theorem stops_iff {p : Char → Bool} : Stops p s ↔ s.head?.any p = false := by
  cases s with
  | nil => simp
  | cons c s => simp

theorem wholeIn_iff : WholeIn content value ↔ ∃ i < content.length,
    (read? (content.drop i)).any (fun a => a.1 = value && !a.2.head?.any isHexDigit) = true := by
  simp only [Option.any_eq_true, Bool.and_eq_true, decide_eq_true_eq, Bool.not_eq_true', ← stops_iff]
  constructor
  · rintro ⟨before, literal, after, rfl, hwritten, hstops, rfl⟩
    have hpos := List.length_pos_iff.mpr hwritten.ne_nil
    refine ⟨before.length, by simp only [List.length_append]; omega, (lower literal, after), ?_, rfl, hstops⟩
    rw [List.drop_left]
    exact read?_eq_some_iff.mpr ⟨literal, after, rfl, hwritten, rfl⟩
  · rintro ⟨i, -, a, hread, rfl, hstops⟩
    obtain ⟨literal, after, hdrop, hwritten, rfl⟩ := read?_eq_some_iff.mp hread
    exact ⟨content.take i, literal, after, by rw [← hdrop, List.take_append_drop], hwritten, hstops, rfl⟩

instance : Decidable (WholeIn content value) := decidable_of_iff' _ wholeIn_iff

end Address

theorem Text.prefix_trimEnd (s : Text) : trimEnd s <+: s := by
  induction s with
  | nil => exact List.prefix_refl []
  | cons c s ih =>
    rw [trimEnd]
    split
    · split
      · exact List.nil_prefix
      · exact ⟨s, rfl⟩
    · next t ht => exact (List.prefix_cons_inj c).mpr ih

theorem Text.infix_trim (s : Text) : trim s <:+: s :=
  (prefix_trimEnd _).isInfix.trans (List.dropWhile_suffix _).isInfix

namespace SourceTable

variable {content constant body name value next s : Text}

theorem infix_of_block? (h : block? content constant = some body) : body <:+: content := by
  by_cases hlacks : Lacks (IsHead constant) content
  · rw [block?_eq_none_of_lacks hlacks] at h
    cases h
  obtain ⟨before, head, rest, hfirst⟩ := (takes_afterHead? constant).exists_first hlacks
  rw [block?_of_firstPart hfirst] at h
  obtain ⟨⟨inside, after⟩, hcut, rfl⟩ := Option.map_eq_some_iff.mp h
  refine ⟨before ++ head, blockEnd ++ after, ?_⟩
  rw [hfirst.split, (cut?_blockEnd.mp hcut).1]
  simp

theorem wholeIn_of_isLiteral {literal address : Text} (h : IsLiteral literal address)
    (hin : literal <:+: content) : Address.WholeIn content address := by
  obtain ⟨lead, digits, trail, -, -, hlength, hdigits, rfl, rfl⟩ := h
  obtain ⟨u, v, rfl⟩ := hin
  refine ⟨u ++ "address!(".toList ++ lead ++ ['"'], '0' :: 'x' :: digits, '"' :: (trail ++ ')' :: v), ?_,
    ⟨digits, hlength, hdigits, rfl⟩, stops_cons.mpr (by decide), rfl⟩
  simp

theorem exists_literal_of_addressIn (hne : addressIn value ≠ []) :
    ∃ literal, literal <:+: value ∧ IsLiteral literal (addressIn value) := by
  rw [addressIn] at hne ⊢
  split at hne
  · exact absurd rfl hne
  next hnone =>
  rw [if_neg hnone]
  cases hsearch : search? readMacro? (trim value) with
  | none => rw [hsearch] at hne; exact absurd rfl hne
  | some a =>
    obtain ⟨before, rest, htrim, hread⟩ := exists_of_search? hsearch
    obtain ⟨literal, after, rfl, hliteral⟩ := readMacro?_eq_some_iff.mp hread
    have hin : literal <:+: trim value := ⟨before, after, by rw [htrim, List.append_assoc]⟩
    exact ⟨literal, hin.trans (infix_trim value), hliteral⟩

/-- What a source file gives a field is a complete address of the file. -/
theorem wholeIn_of_lookup {field address : Text} (h : (read content constant).lookup field = some address)
    (hne : address ≠ []) : Address.WholeIn content address := by
  have hmem := AddressTable.mem_of_lookup h
  rw [read] at hmem
  split at hmem
  · cases hmem
  next body hblock =>
  obtain ⟨⟨name, value⟩, hfield, he⟩ := List.mem_map.mp (AddressTable.mem_of_mem_ofList hmem)
  obtain ⟨-, rfl⟩ := Prod.mk.inj he
  obtain ⟨literal, hin, hliteral⟩ := exists_literal_of_addressIn hne
  obtain ⟨p, -, rfl⟩ := exists_place_of_mem_fields hfield
  exact wholeIn_of_isLiteral hliteral (hin.trans (p.infix_value.trans (infix_of_block? hblock)))

end SourceTable

namespace Documentation

open Address

variable {label : Label} {content header inside field value : Text}

/-- The number that begins with the address of a listing, to its last digit. -/
def Listing.number (l : Listing label inside) : Text := l.literal ++ l.after.takeWhile isHexDigit

theorem Listing.ascii_number (l : Listing label inside) : ∀ c ∈ l.number, c.toNat < 128 := by
  obtain ⟨digits, -, hdigits, hliteral⟩ := l.written
  intro c hc
  rw [number, hliteral] at hc
  simp only [List.mem_append, List.mem_cons] at hc
  rcases hc with (rfl | rfl | hc) | hc
  · decide
  · decide
  · exact ascii_of_isHexDigit (List.all_eq_true.mp hdigits c hc)
  · exact ascii_of_isHexDigit (List.all_eq_true.mp List.all_takeWhile c hc)

theorem Listing.lower_number (l : Listing label inside) :
    lower l.number = lower l.literal ++ (l.after.takeWhile isHexDigit).map Char.toLower := by
  have hnumber := l.ascii_number
  have hliteral : ∀ c ∈ l.literal, c.toNat < 128 := fun c hc => hnumber c (List.mem_append_left _ hc)
  rw [lower, lower, lowerFrom_ascii hnumber, lowerFrom_ascii hliteral, number, List.map_append]

theorem Listing.take_lower_number (l : Listing label inside) :
    (lower l.number).take (digitCount + 2) = lower l.literal := by
  obtain ⟨digits, hlength, hdigits, hliteral⟩ := l.written
  rw [l.lower_number]
  refine List.take_left' ?_
  rw [hliteral, show '0' :: 'x' :: digits = "0x".toList ++ digits from rfl,
    SourceTable.lower_digits hdigits]
  simp [hlength]

theorem Listing.lower_eq_iff (l : Listing label inside) :
    lower l.literal = lower l.number ↔ Stops isHexDigit l.after := by
  rw [l.lower_number]
  constructor
  · intro h
    have hnil : l.after.takeWhile isHexDigit = [] := by simpa using h
    intro c hc
    cases hafter : l.after with
    | nil => simp [hafter] at hc
    | cons d s =>
      obtain rfl : d = c := by simpa [hafter] using hc
      simpa [hafter, List.takeWhile_cons] using hnil
  · intro hstops
    have hnil : l.after.takeWhile isHexDigit = [] := takeWhile_run (w := []) (by simp) hstops
    rw [hnil, List.map_nil, List.append_nil]

theorem Listing.wholeIn (l : Listing label inside) (hsection : section? content header = some inside)
    (hstops : Stops isHexDigit l.after) : WholeIn content (lower l.literal) := by
  obtain ⟨before, found, rest, hfirst, hin⟩ := section?_eq_some_iff.mp hsection
  obtain ⟨tail, hrest, htail⟩ : ∃ tail, rest = inside ++ tail ∧ Stops isHexDigit tail := by
    rcases hin.ended with hend | ⟨after, hend⟩
    · exact ⟨[], by rw [hend, List.append_nil], stops_nil⟩
    · exact ⟨sectionEnd ++ after, hend, stops_cons.mpr (by decide)⟩
  refine ⟨before ++ found ++ l.before ++ label.name ++ l.gap, l.literal, l.after ++ tail, ?_, l.written, ?_,
    rfl⟩
  · have hinside : rest = l.before ++ (label.name ++ (l.gap ++ (l.literal ++ l.after))) ++ tail :=
      hrest.trans (congrArg (· ++ tail) l.split)
    rw [hfirst.split, hinside]
    simp
  · cases hafter : l.after with
    | nil => exact htail
    | cons c s =>
      rw [hafter, stops_cons] at hstops
      exact stops_cons.mpr hstops

/-- Every address on a page is that of the first listing of a label. -/
theorem exists_listing (h : (read content header).lookup field = some value) (hne : value ≠ []) :
    ∃ label ∈ labels, label.field = field ∧ ∃ inside, section? content header = some inside ∧
      ∃ l : Listing label inside, l.IsFirst ∧ value = lower l.literal := by
  have hmem := AddressTable.mem_of_lookup h
  rw [read] at hmem
  split at hmem
  · cases hmem
  next inside hsection =>
  obtain ⟨label, hlabel, he⟩ := List.mem_map.mp (AddressTable.mem_of_mem_ofList hmem)
  obtain ⟨hfield, hvalue⟩ := Prod.mk.inj he
  cases ha : addressOf? label false inside with
  | none =>
    rw [ha] at hvalue
    exact absurd hvalue.symm hne
  | some a =>
    rw [ha] at hvalue
    obtain ⟨l, hfirst, rfl⟩ := exists_first_of_addressOf? ha
    exact ⟨label, hlabel, hfield, inside, hsection, l, hfirst, hvalue.symm⟩

end Documentation

/-- Of a source file only complete addresses are read. What is read of a page is the beginning of the
number at the first listing of a label, forty digits of it, and the whole number exactly if no further
digit follows; then it is a complete address of the page. -/
theorem addresses_complete_iff (content : Text) :
    (∀ constant field value, (SourceTable.read content constant).lookup field = some value →
      value ≠ [] → Address.WholeIn content value) ∧
    ∀ header field value, (Documentation.read content header).lookup field = some value → value ≠ [] →
      ∃ label ∈ Documentation.labels, label.field = field ∧
        ∃ inside, Documentation.section? content header = some inside ∧
        ∃ l : Documentation.Listing label inside, l.IsFirst ∧
          value = (lower l.number).take (Address.digitCount + 2) ∧
          (value = lower l.number ↔ Stops isHexDigit l.after) ∧
          (Stops isHexDigit l.after → Address.WholeIn content value) := by
  refine ⟨fun constant field value h hne => SourceTable.wholeIn_of_lookup h hne, ?_⟩
  intro header field value h hne
  obtain ⟨label, hlabel, hfield, inside, hsection, l, hfirst, rfl⟩ := Documentation.exists_listing h hne
  exact ⟨label, hlabel, hfield, inside, hsection, l, hfirst, l.take_lower_number.symm, l.lower_eq_iff,
    l.wholeIn hsection⟩

def quotedSource : Text :=
  "pub const BASE: Deployment = Deployment \x7b zkc_address: address!(\"0xABCDEFabcdef0123456789ABCDEFabcdef012345\"), \x7d;".toList

def completePage : Text :=
  "### Base\nSetVerifier: see SetVerifier 0xABCDEFabcdef0123456789ABCDEFabcdef012345".toList

theorem addresses_complete_quoted :
    let value := "0xabcdefabcdef0123456789abcdefabcdef012345".toList
    (SourceTable.read quotedSource "base".toList).lookup "zkc_address".toList = some value ∧
    Address.WholeIn quotedSource value ∧
    (Documentation.read completePage "### Base".toList).lookup "set_verifier_address".toList = some value ∧
    ∃ label ∈ Documentation.labels, label.field = "set_verifier_address".toList ∧
      ∃ inside, Documentation.section? completePage "### Base".toList = some inside ∧
      ∃ l : Documentation.Listing label inside, l.IsFirst ∧
        value = (lower l.number).take (Address.digitCount + 2) ∧
        (value = lower l.number ↔ Stops isHexDigit l.after) ∧
        (Stops isHexDigit l.after → Address.WholeIn completePage value) := by
  have hsource : (SourceTable.read quotedSource "base".toList).lookup "zkc_address".toList =
      some "0xabcdefabcdef0123456789abcdefabcdef012345".toList := by decide +kernel
  have hpage : (Documentation.read completePage "### Base".toList).lookup "set_verifier_address".toList =
      some "0xabcdefabcdef0123456789abcdefabcdef012345".toList := by decide +kernel
  exact ⟨hsource, (addresses_complete_iff quotedSource).1 _ _ _ hsource (by decide), hpage,
    (addresses_complete_iff completePage).2 _ _ _ hpage (by decide)⟩

def digestPage : Text :=
  "### Base\nSetVerifier 0x00112233445566778899AABBCCDDEEFF00112233445566778899AABBCCDDEEFF\n".toList

/-- A number of thirty-two bytes is read as an address that the page does not hold. -/
theorem digest_read_as_address :
    (Documentation.read digestPage "### Base".toList).lookup "set_verifier_address".toList =
      some "0x00112233445566778899aabbccddeeff00112233".toList ∧
    ¬ Address.WholeIn digestPage "0x00112233445566778899aabbccddeeff00112233".toList :=
  ⟨by decide +kernel, by decide +kernel⟩

end DeploymentRecords
