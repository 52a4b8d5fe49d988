import DeploymentRecords.Command.Update
import DeploymentRecords.Proofs.SourceFields
import Mathlib.Data.List.Nodup

/-! # Given flags

The flags of a command line are known and different from each other, so they can be put into the
order of the fields without losing one. -/

namespace DeploymentRecords.Command

open Files

namespace Request

structure Admissible (known : List Text) (given : List (Text × Text)) : Prop where
  known : ∀ name ∈ given.map Prod.fst, name ∈ known
  nodup : (given.map Prod.fst).Nodup

variable {known : List Text} {given values : List (Text × Text)}

theorem admissible_nil : Admissible known [] := ⟨by simp, by simp⟩

theorem Admissible.cons (h : Admissible known given) {name : Text} (hallows : allows known given name = true)
    (value : Text) : Admissible known ((name, value) :: given) := by
  obtain ⟨hname, hnone⟩ : name ∈ known ∧ given.lookup name = none := by
    simpa [allows] using hallows
  have hfresh : name ∉ given.map Prod.fst := by
    intro hm
    obtain ⟨⟨_, v⟩, hflag, rfl⟩ := List.mem_map.mp hm
    rw [AddressTable.lookup_of_mem h.nodup hflag] at hnone
    cases hnone
  refine ⟨?_, List.nodup_cons.mpr ⟨hfresh, h.nodup⟩⟩
  rw [List.map_cons, List.forall_mem_cons]
  exact ⟨hname, h.known⟩

theorem admissible_of_readFrom {args : List ByteArray} (hgiven : Admissible known given)
    (h : readFrom known given args = .flags values) : Admissible known values := by
  fun_induction readFrom known given args generalizing values
  case case1 | case3 =>
    obtain rfl := Request.flags.inj h
    exact hgiven
  case case6 name value _ hallows ih => exact ih (hgiven.cons hallows value) h
  case case10 value _ hallows ih => exact ih (hgiven.cons hallows.1 value) h
  all_goals cases h

theorem admissible_of_read {args : List ByteArray} (h : read known args = .flags values) :
    Admissible known values :=
  admissible_of_readFrom admissible_nil h

end Request

namespace Update

variable {values : List (Text × Text)}

/-- The flags are the fields, in their order. -/
theorem flags_eq : flags = settableFields := by decide +kernel

theorem placed_eq : placed = options := rfl

/-- Each place holds the value of the flag that is named as the field in this place. -/
theorem ordered_eq (values : List (Text × Text)) : ordered values =
    settableFields.filterMap fun field => (values.lookup field).map fun value => (field, value) := by
  have hplaces : (placed.map fun option => values.lookup (flagName option)) =
      settableFields.map fun field => values.lookup field := by
    rw [placed_eq, ← flags_eq, flags, List.map_map]
    rfl
  have hbeside := List.zip_map' (f := id) (g := fun field => values.lookup field) (l := settableFields)
  rw [List.map_id] at hbeside
  rw [ordered, hplaces, hbeside, List.filterMap_map]
  rfl

theorem mem_ordered {field value : Text} :
    (field, value) ∈ ordered values ↔ field ∈ settableFields ∧ values.lookup field = some value := by
  rw [ordered_eq, List.mem_filterMap]
  constructor
  · rintro ⟨name, hname, h⟩
    obtain ⟨v, hv, he⟩ := Option.map_eq_some_iff.mp h
    obtain ⟨rfl, rfl⟩ := Prod.mk.inj he
    exact ⟨hname, hv⟩
  · rintro ⟨hname, hv⟩
    exact ⟨field, hname, by rw [hv]; rfl⟩

theorem ordered_sublist : ((ordered values).map Prod.fst).Sublist settableFields := by
  rw [ordered_eq]
  induction settableFields with
  | nil => exact List.Sublist.slnil
  | cons field fields ih =>
    rw [List.filterMap_cons]
    cases values.lookup field with
    | none => exact ih.cons field
    | some value => exact ih.cons_cons field

theorem settableFields_nodup : settableFields.Nodup := by decide

theorem ordered_perm (h : Request.Admissible settableFields values) : (ordered values).Perm values := by
  have hordered : (ordered values).Nodup :=
    List.Nodup.of_map Prod.fst (settableFields_nodup.sublist ordered_sublist)
  rw [List.perm_ext_iff_of_nodup hordered (List.Nodup.of_map Prod.fst h.nodup)]
  rintro ⟨field, value⟩
  rw [mem_ordered]
  constructor
  · exact fun hmem => AddressTable.mem_of_lookup hmem.2
  · exact fun hmem => ⟨h.known field (List.mem_map_of_mem hmem), AddressTable.lookup_of_mem h.nodup hmem⟩

end Update

end DeploymentRecords.Command
