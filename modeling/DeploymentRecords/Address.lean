import DeploymentRecords.Number.Digits

/-!
# Addresses

An address is `0x` and forty hexadecimal digits, kept in lower case. A table gives each field name
its address, the empty text where there is none, in the order of the names.
-/

namespace DeploymentRecords

namespace Address

def digitCount : Nat := 40

def read? (s : Text) : Option (Text × Text) :=
  match Text.after? ['0', 'x'] s with
  | none => none
  | some rest =>
    let digits := rest.take digitCount
    if digits.length = digitCount ∧ digits.all Number.isHexDigit then
      some ('0' :: 'x' :: digits.map Char.toLower, rest.drop digitCount)
    else none

theorem eq_of_read? {s address rest : Text} (h : read? s = some (address, rest)) :
    ∃ digits : Text, digits.length = digitCount ∧ digits.all Number.isHexDigit = true ∧
      s = '0' :: 'x' :: digits ++ rest ∧ address = '0' :: 'x' :: digits.map Char.toLower := by
  simp only [read?] at h
  split at h
  · cases h
  · next t ht =>
    split at h
    · next hd =>
      cases h
      exact ⟨t.take digitCount, hd.1, hd.2, by simpa using Text.after?_eq_some_iff.1 ht, rfl⟩
    · cases h

end Address

abbrev AddressTable := List (Text × Text)

namespace AddressTable

/-- The table with an address under a field; a later one takes the place of an earlier. -/
def insert (field address : Text) : AddressTable → AddressTable
  | [] => [(field, address)]
  | (f, a) :: table =>
    if field < f then (field, address) :: (f, a) :: table
    else if field = f then (field, address) :: table
    else (f, a) :: insert field address table

def ofList (fields : List (Text × Text)) : AddressTable :=
  fields.foldl (fun table (field, address) => insert field address table) []

def get (table : AddressTable) (field : Text) : Text := (table.lookup field).getD []

end AddressTable

end DeploymentRecords
