import DeploymentRecords.Proofs.AddressSpelling
import DeploymentRecords.Proofs.CanonicalValue
import DeploymentRecords.Proofs.FirstPlaces

/-! # What address tables hold

Every entry of a table comes from the fields it was made of, and the fields stand in their order. Whatever
the text, a table read from a source file or from documentation gives each of its fields a canonical
address or none. -/

namespace DeploymentRecords

namespace AddressTable

theorem mem_insert_imp {field address : Text} {entry : Text × Text} {table : AddressTable}
    (h : entry ∈ insert field address table) : entry = (field, address) ∨ entry ∈ table := by
  induction table with
  | nil => exact Or.inl (by simpa [insert] using h)
  | cons head table ih =>
    simp only [insert] at h
    split at h
    · simpa using h
    · split at h
      · rcases List.mem_cons.mp h with h | h
        · exact Or.inl h
        · exact Or.inr (List.mem_cons_of_mem _ h)
      · rcases List.mem_cons.mp h with h | h
        · exact Or.inr (by simp [h])
        · exact (ih h).imp_right (List.mem_cons_of_mem _)

theorem mem_of_mem_foldl_insert {fields : List (Text × Text)} {table : AddressTable}
    {entry : Text × Text}
    (h : entry ∈ fields.foldl (fun table (field, address) => insert field address table) table) :
    entry ∈ fields ∨ entry ∈ table := by
  induction fields generalizing table with
  | nil => exact Or.inr h
  | cons head fields ih =>
    rcases ih h with h | h
    · exact Or.inl (List.mem_cons_of_mem _ h)
    · rcases mem_insert_imp h with rfl | h
      · exact Or.inl List.mem_cons_self
      · exact Or.inr h

theorem mem_of_mem_ofList {fields : List (Text × Text)} {entry : Text × Text}
    (h : entry ∈ ofList fields) : entry ∈ fields :=
  (mem_of_mem_foldl_insert h).resolve_right List.not_mem_nil

theorem lookup_of_get {table : AddressTable} {field address : Text} (hne : address ≠ [])
    (h : table.get field = address) : table.lookup field = some address := by
  unfold get at h
  cases hl : table.lookup field with
  | none => exact absurd (by simpa [hl] using h.symm) hne
  | some a => simpa [hl] using h

theorem get_of_lookup {table : AddressTable} {field address : Text}
    (h : table.lookup field = some address) : table.get field = address := by
  simp [get, h]

theorem mem_of_lookup {table : List (Text × Text)} {field address : Text}
    (h : table.lookup field = some address) : (field, address) ∈ table := by
  obtain ⟨before, after, rfl, -⟩ := List.lookup_eq_some_iff.mp h
  simp

theorem lookup_insert (field address other : Text) (table : AddressTable) :
    (insert field address table).lookup other = if other = field then some address else table.lookup other := by
  induction table with
  | nil => exact Toml.Value.lookup_cons other (field, address) []
  | cons entry table ih =>
    simp only [insert]
    split
    · rw [Toml.Value.lookup_cons]
    · split
      · next h =>
        rw [Toml.Value.lookup_cons, Toml.Value.lookup_cons, ← h]
        split <;> rfl
      · next h =>
        rw [Toml.Value.lookup_cons, Toml.Value.lookup_cons, ih]
        by_cases hother : other = entry.1
        · rw [if_pos hother, if_pos hother, if_neg fun e => h (e.symm.trans hother)]
        · rw [if_neg hother, if_neg hother]

/-- Of the addresses of a field the last counts. -/
theorem lookup_ofList (fields : List (Text × Text)) (field : Text) :
    (ofList fields).lookup field = fields.reverse.lookup field := by
  rw [ofList, ← List.foldr_reverse]
  induction fields.reverse with
  | nil => rfl
  | cons entry fields ih => rw [List.foldr_cons, lookup_insert, ih, Toml.Value.lookup_cons]

structure Sound (table : AddressTable) : Prop where
  ascending : table.Pairwise fun a b => a.1 < b.1
  range : ∀ field address, (field, address) ∈ table → address = [] ∨ Address.Canonical address

variable {table : AddressTable}

theorem Sound.get_range (h : table.Sound) (field : Text) :
    table.get field = [] ∨ Address.Canonical (table.get field) := by
  by_cases hnil : table.get field = []
  · exact Or.inl hnil
  · exact h.range field _ (mem_of_lookup (lookup_of_get hnil rfl))

theorem Sound.lower_get (h : table.Sound) (field : Text) : Text.lower (table.get field) = table.get field := by
  rcases h.get_range field with hnil | hcanonical
  · rw [hnil]
    rfl
  · exact hcanonical.lower_eq

theorem ascending_insert {table : AddressTable} (h : table.Pairwise fun a b => a.1 < b.1) (field address : Text) :
    (insert field address table).Pairwise fun a b => a.1 < b.1 := by
  induction table with
  | nil => exact List.pairwise_singleton _ _
  | cons entry table ih =>
    obtain ⟨hentry, htable⟩ := List.pairwise_cons.mp h
    simp only [insert]
    split
    · next hlt =>
      refine List.pairwise_cons.mpr ⟨fun other hother => ?_, h⟩
      rcases List.mem_cons.mp hother with rfl | hother
      · exact hlt
      · exact lt_trans hlt (hentry other hother)
    · next hle =>
      split
      · next heq => exact List.pairwise_cons.mpr ⟨heq ▸ hentry, htable⟩
      · next hne =>
        refine List.pairwise_cons.mpr ⟨fun other hother => ?_, ih htable⟩
        rcases mem_insert_imp hother with rfl | hother
        · exact lt_of_le_of_ne (not_lt.mp hle) (Ne.symm hne)
        · exact hentry other hother

theorem ascending_ofList (fields : List (Text × Text)) : (ofList fields).Pairwise fun a b => a.1 < b.1 := by
  rw [ofList, ← List.foldr_reverse]
  induction fields.reverse with
  | nil => exact List.Pairwise.nil
  | cons entry fields ih => exact ascending_insert ih _ _

theorem sound_ofList {fields : List (Text × Text)}
    (h : ∀ field address, (field, address) ∈ fields → address = [] ∨ Address.Canonical address) :
    (ofList fields).Sound :=
  ⟨ascending_ofList fields, fun field address hmem => h field address (mem_of_mem_ofList hmem)⟩

theorem sound_nil : Sound [] := ⟨List.Pairwise.nil, fun _ _ hmem => absurd hmem List.not_mem_nil⟩

end AddressTable

namespace SourceTable

theorem canonical_of_readMacro? {s address : Text} (h : readMacro? s = some address) :
    Address.Canonical address := by
  simp only [readMacro?] at h
  split at h
  · cases h
  · split at h
    · cases h
    · next a rest hread =>
      obtain ⟨_, -, h⟩ := Option.bind_eq_some_iff.mp h
      obtain ⟨_, -, rfl⟩ := Option.map_eq_some_iff.mp h
      exact Address.canonical_of_read? hread

theorem addressIn_range (value : Text) :
    addressIn value = [] ∨ Address.Canonical (addressIn value) := by
  simp only [addressIn]
  split
  · exact Or.inl rfl
  · cases h : Text.search? readMacro? (Text.trim value) with
    | none => exact Or.inl rfl
    | some address =>
      obtain ⟨_, _, -, hread⟩ := Text.exists_of_search? h
      exact Or.inr (canonical_of_readMacro? hread)

theorem sound_read (content constant : Text) : (read content constant).Sound := by
  rw [read]
  split
  · exact AddressTable.sound_nil
  · refine AddressTable.sound_ofList fun field address hmem => ?_
    obtain ⟨⟨name, value⟩, -, he⟩ := List.mem_map.mp hmem
    obtain ⟨-, rfl⟩ := Prod.mk.inj he
    exact addressIn_range value

end SourceTable

namespace Documentation

theorem canonical_of_addressOf? {label : Label} {b : Bool} {s address : Text}
    (h : addressOf? label b s = some address) : Address.Canonical address := by
  induction s generalizing b with
  | nil => cases h
  | cons c s ih =>
    simp only [addressOf?] at h
    split at h
    · next a ha =>
      obtain ⟨rest, -, hline⟩ := Option.bind_eq_some_iff.mp ha
      obtain ⟨_, t, -, hread⟩ := Text.exists_of_search? hline
      obtain ⟨⟨a', rest'⟩, hread, he⟩ := Option.map_eq_some_iff.mp hread
      have : a' = address := by rw [← Option.some.inj h, ← he]
      exact this ▸ Address.canonical_of_read? hread
    · exact ih h

theorem sound_read (content header : Text) : (read content header).Sound := by
  rw [read]
  split
  · exact AddressTable.sound_nil
  · next inside _ =>
    refine AddressTable.sound_ofList fun field address hmem => ?_
    obtain ⟨label, -, he⟩ := List.mem_map.mp hmem
    obtain ⟨-, rfl⟩ := Prod.mk.inj he
    cases ha : addressOf? label false inside with
    | none => exact Or.inl rfl
    | some a => exact Or.inr (canonical_of_addressOf? ha)

end Documentation

end DeploymentRecords
