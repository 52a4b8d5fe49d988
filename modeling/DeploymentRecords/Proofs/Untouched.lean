import DeploymentRecords.Proofs.Overwriting

/-! # Untouched entries

Two values that agree on every entry, but for some names in the table at the end of a path. -/

namespace DeploymentRecords.Toml

namespace Value

/-- The values are tables with the same entries, but for `names` in the table at the end of the
path, which there may be in either or in both. -/
def SameBut (names : List Text) : List Text → Value → Value → Prop
  | [], old, new =>
    (∃ entries, old = .table entries) ∧ (∃ entries, new = .table entries) ∧
      ∀ name, name ∉ names → new.field? name = old.field? name
  | key :: path, old, new =>
    (∃ entries, old = .table entries) ∧ (∃ entries, new = .table entries) ∧
      (∀ name, name ≠ key → new.field? name = old.field? name) ∧
        ∃ v w, old.field? key = some v ∧ new.field? key = some w ∧ SameBut names path v w

variable {names : List Text} {path : List Text} {u v w : Value}

theorem SameBut.symm (h : SameBut names path u v) : SameBut names path v u := by
  induction path generalizing u v with
  | nil => exact ⟨h.2.1, h.1, fun name hname => (h.2.2 name hname).symm⟩
  | cons key path ih =>
    obtain ⟨hu, hv, hother, u', v', hu', hv', hrest⟩ := h
    exact ⟨hv, hu, fun name hname => (hother name hname).symm, v', u', hv', hu', ih hrest⟩

theorem SameBut.trans (h : SameBut names path u v) (h' : SameBut names path v w) :
    SameBut names path u w := by
  induction path generalizing u v w with
  | nil => exact ⟨h.1, h'.2.1, fun name hname => (h'.2.2 name hname).trans (h.2.2 name hname)⟩
  | cons key path ih =>
    obtain ⟨hu, -, hother, u', v', hu', hv', hrest⟩ := h
    obtain ⟨-, hw, hother', v'', w', hv'', hw', hrest'⟩ := h'
    obtain rfl := Option.some.inj (hv'.symm.trans hv'')
    exact ⟨hu, hw, fun name hname => (hother' name hname).trans (hother name hname), u', w', hu', hw',
      ih hrest hrest'⟩

theorem lookup_reverse_eq_none {fields : List (Text × Text)} {name : Text}
    (h : name ∉ fields.map Prod.fst) : fields.reverse.lookup name = none := by
  rw [List.lookup_eq_none_iff]
  intro field hfield
  have hmem : field.1 ∈ fields.map Prod.fst := List.mem_map_of_mem (List.mem_reverse.mp hfield)
  exact bne_iff_ne.mpr fun e => h (e ▸ hmem)

theorem Overwritten.sameBut {fields : List (Text × Text)} (h : Overwritten fields path u v) :
    SameBut (fields.map Prod.fst) path u v := by
  induction path generalizing u v with
  | nil =>
    refine ⟨h.1, h.2.1, fun name hname => ?_⟩
    rw [h.2.2, lookup_reverse_eq_none hname]
    rfl
  | cons key path ih =>
    obtain ⟨hu, hv, hother, u', v', hu', hv', hrest⟩ := h
    exact ⟨hu, hv, hother, u', v', hu', hv', ih hrest⟩

def at? : List Text → Value → Option Value
  | [], v => some v
  | name :: path, v => (v.field? name).bind (at? path)

theorem SameBut.at? (h : SameBut names path u v) {name : Text} (hname : name ∉ names) :
    v.at? (path ++ [name]) = u.at? (path ++ [name]) := by
  induction path generalizing u v with
  | nil =>
    rw [List.nil_append, Value.at?, Value.at?, h.2.2 name hname]
  | cons key path ih =>
    obtain ⟨-, -, -, u', v', hu', hv', hrest⟩ := h
    rw [List.cons_append, Value.at?, Value.at?, hu', hv', Option.bind_some, Option.bind_some, ih hrest]

variable {α : Type} {f g : α → Value} {entries : List (Key × α)}

def ofEntries (f : α → Value) (entries : List (Key × α)) : Value :=
  .table (entries.map fun p => (p.1.name, f p.2))

theorem field?_ofEntries (hnodup : (Toml.names entries).Nodup) {p : Key × α} (hp : p ∈ entries) :
    (ofEntries f entries).canonical.field? p.1.name = some (f p.2).canonical := by
  have hkeys : ((entries.map fun p => (p.1.name, f p.2)).map Prod.fst).Nodup := by
    rw [List.map_map]
    exact hnodup
  have hmem : (p.1.name, f p.2) ∈ entries.map fun p => (p.1.name, f p.2) :=
    List.mem_map_of_mem (f := fun p : Key × α => (p.1.name, f p.2)) hp
  rw [field?_canonical, ofEntries, field?_table, lookup_of_mem hkeys hmem]
  rfl

theorem field?_ofEntries_none {name : Text} (hname : name ∉ Toml.names entries) :
    (ofEntries f entries).canonical.field? name = none := by
  rw [field?_canonical, ofEntries, field?_table, Option.map_eq_none_iff, List.lookup_eq_none_iff]
  intro entry hentry
  obtain ⟨p, hp, rfl⟩ := List.mem_map.mp hentry
  exact bne_iff_ne.mpr fun e => hname (mem_names.mpr ⟨p, hp, e.symm⟩)

theorem forall_field?_iff (hnodup : (Toml.names entries).Nodup) (good : Text → Prop) :
    (∀ name, good name → (ofEntries g entries).canonical.field? name =
      (ofEntries f entries).canonical.field? name) ↔
        ∀ p ∈ entries, good p.1.name → (f p.2).canonical = (g p.2).canonical := by
  constructor
  · intro h p hp hgood
    have hname := h p.1.name hgood
    rw [field?_ofEntries hnodup hp, field?_ofEntries hnodup hp] at hname
    exact (Option.some.inj hname).symm
  · intro h name hgood
    by_cases hname : name ∈ Toml.names entries
    · obtain ⟨p, hp, rfl⟩ := mem_names.mp hname
      rw [field?_ofEntries hnodup hp, field?_ofEntries hnodup hp, h p hp hgood]
    · rw [field?_ofEntries_none hname, field?_ofEntries_none hname]

theorem canonical_ofEntries_iff (hnodup : (Toml.names entries).Nodup) :
    (ofEntries f entries).canonical = (ofEntries g entries).canonical ↔
      ∀ p ∈ entries, (f p.2).canonical = (g p.2).canonical := by
  constructor
  · intro h
    have hfields := (forall_field?_iff (f := f) (g := g) hnodup fun _ => True).mp fun name _ => by rw [h]
    exact fun p hp => hfields p hp trivial
  · intro h
    rw [ofEntries, ofEntries, canonical, canonical]
    have hsame : canonicalEntries (entries.map fun p => (p.1.name, f p.2)) =
        canonicalEntries (entries.map fun p => (p.1.name, g p.2)) := by
      clear hnodup
      induction entries with
      | nil => rfl
      | cons p entries ih =>
        obtain ⟨hp, hentries⟩ := List.forall_mem_cons.mp h
        rw [List.map_cons, List.map_cons, canonicalEntries, canonicalEntries, hp, ih hentries]
    rw [hsame]

theorem exists_table_ofEntries (f : α → Value) (entries : List (Key × α)) :
    ∃ es, (ofEntries f entries).canonical = .table es :=
  exists_table_canonical ⟨_, rfl⟩

theorem sameBut_nil_iff (hnodup : (Toml.names entries).Nodup) :
    SameBut names [] (ofEntries f entries).canonical (ofEntries g entries).canonical ↔
      ∀ p ∈ entries, p.1.name ∉ names → (f p.2).canonical = (g p.2).canonical := by
  rw [SameBut, and_iff_right (exists_table_ofEntries f entries),
    and_iff_right (exists_table_ofEntries g entries)]
  exact forall_field?_iff hnodup fun name => name ∉ names

theorem sameBut_cons_iff (hnodup : (Toml.names entries).Nodup) {key : Key} {a : α}
    (hmem : (key, a) ∈ entries) :
    SameBut names (key.name :: path) (ofEntries f entries).canonical (ofEntries g entries).canonical ↔
      (∀ p ∈ entries, p.1.name ≠ key.name → (f p.2).canonical = (g p.2).canonical) ∧
        SameBut names path (f a).canonical (g a).canonical := by
  rw [SameBut, and_iff_right (exists_table_ofEntries f entries),
    and_iff_right (exists_table_ofEntries g entries),
    forall_field?_iff hnodup fun name => name ≠ key.name, field?_ofEntries hnodup hmem,
    field?_ofEntries hnodup hmem]
  refine and_congr_right fun _ => ⟨?_, fun h => ⟨_, _, rfl, rfl, h⟩⟩
  rintro ⟨v, w, hv, hw, h⟩
  rwa [Option.some.inj hv, Option.some.inj hw]

end Value

end DeploymentRecords.Toml
