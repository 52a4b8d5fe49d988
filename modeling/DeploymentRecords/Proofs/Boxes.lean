import DeploymentRecords.Proofs.Overwriting

/-! # Documents without boxes

A value has a box just if its canonical value has one. Writing strings under other names puts no
box into a document, and neither does stripping its lines. -/

namespace DeploymentRecords.Toml

namespace Value

theorem allBoxless_iff {vs : List Value} : AllBoxless vs ↔ ∀ v ∈ vs, v.Boxless := by
  induction vs with
  | nil => simp [AllBoxless]
  | cons v vs ih => rw [AllBoxless, ih, List.forall_mem_cons]

theorem entriesBoxless_iff {entries : List (Text × Value)} :
    EntriesBoxless entries ↔ ∀ p ∈ entries, p.1 ≠ boxKey ∧ p.2.Boxless := by
  induction entries with
  | nil => simp [EntriesBoxless]
  | cons p entries ih => rw [EntriesBoxless, ih, List.forall_mem_cons, and_assoc]

theorem entriesBoxless_sortEntries {entries : List (Text × Value)} :
    EntriesBoxless (sortEntries entries) ↔ EntriesBoxless entries := by
  rw [entriesBoxless_iff, entriesBoxless_iff]
  exact forall_congr' fun p => by rw [sortEntries, Sorting.mem_sort]

mutual

theorem boxless_canonical : (v : Value) → (v.canonical.Boxless ↔ v.Boxless)
  | .scalar s => Iff.rfl
  | .array elements => by
    rw [canonical, Boxless, Boxless, allBoxless_canonicalAll elements]
  | .table entries => by
    rw [canonical, Boxless, Boxless, entriesBoxless_sortEntries, entriesBoxless_canonicalEntries entries]

theorem allBoxless_canonicalAll : (vs : List Value) → (AllBoxless (canonicalAll vs) ↔ AllBoxless vs)
  | [] => Iff.rfl
  | v :: vs => by
    rw [canonicalAll, AllBoxless, AllBoxless, boxless_canonical v, allBoxless_canonicalAll vs]

theorem entriesBoxless_canonicalEntries : (entries : List (Text × Value)) →
    (EntriesBoxless (canonicalEntries entries) ↔ EntriesBoxless entries)
  | [] => Iff.rfl
  | (key, v) :: entries => by
    rw [canonicalEntries, EntriesBoxless, EntriesBoxless, boxless_canonical v,
      entriesBoxless_canonicalEntries entries]

end

theorem entriesBoxless_congr {entries others : List (Text × Value)}
    (h : (Value.table entries).canonical = (Value.table others).canonical) :
    EntriesBoxless entries ↔ EntriesBoxless others := by
  have hentries := boxless_canonical (.table entries)
  have hothers := boxless_canonical (.table others)
  rw [h] at hentries
  exact hentries.symm.trans hothers

end Value

namespace Expr

open Value

mutual

theorem boxless_settledValue : (e : Expr) → (e.settledValue.Boxless ↔ e.value.Boxless)
  | .scalar v w _ => Iff.rfl
  | .array elements _ _ _ => by
    rw [settledValue, value, Boxless, Boxless, allBoxless_settledElements elements]
  | .table entries _ _ _ => by
    rw [settledValue, value, Boxless, Boxless, entriesBoxless_settledEntries entries]

theorem allBoxless_settledElements : (es : List Expr) →
    (AllBoxless (settledElements es) ↔ AllBoxless (elementValues es))
  | [] => Iff.rfl
  | e :: es => by
    rw [settledElements, elementValues, AllBoxless, AllBoxless, boxless_settledValue e,
      allBoxless_settledElements es]

theorem entriesBoxless_settledEntries : (entries : List (Key × Expr)) →
    (EntriesBoxless (settledEntries entries) ↔ EntriesBoxless (entryValues entries))
  | [] => Iff.rfl
  | (key, e) :: entries => by
    rw [settledEntries, entryValues, EntriesBoxless, EntriesBoxless, boxless_settledValue e,
      entriesBoxless_settledEntries entries]

end

end Expr

namespace Member

open Value

variable {f g : Expr → Value}

theorem entryValuesBy_eq (entries : Entries) :
    entryValuesBy f entries = entries.map fun p => (p.1.name, p.2.valueBy f) := by
  induction entries with
  | nil => rfl
  | cons p entries ih => rw [entryValuesBy, ih, List.map_cons]

theorem elementValuesBy_eq (elements : List (Heading × Entries)) :
    elementValuesBy f elements = elements.map fun element => .table (entryValuesBy f element.2) := by
  induction elements with
  | nil => rfl
  | cons element elements ih => rw [elementValuesBy, ih, List.map_cons]

theorem entriesBoxless_entryValuesBy {entries : Entries} : EntriesBoxless (entryValuesBy f entries) ↔
    ∀ p ∈ entries, p.1.name ≠ boxKey ∧ (p.2.valueBy f).Boxless := by
  rw [entriesBoxless_iff, entryValuesBy_eq, List.forall_mem_map]

theorem boxless_valueBy (h : ∀ e, (f e).Boxless ↔ (g e).Boxless) (member : Member) :
    (member.valueBy f).Boxless ↔ (member.valueBy g).Boxless := by
  induction member using Member.induct with
  | hexpr e => exact h e
  | htable kind entries ih =>
    rw [valueBy, valueBy, Boxless, Boxless, entriesBoxless_entryValuesBy, entriesBoxless_entryValuesBy]
    exact forall₂_congr fun p hp => and_congr_right' (ih p hp)
  | htables elements ih =>
    rw [valueBy, valueBy, Boxless, Boxless, allBoxless_iff, allBoxless_iff, elementValuesBy_eq,
      elementValuesBy_eq, List.forall_mem_map, List.forall_mem_map]
    refine forall₂_congr fun element helement => ?_
    rw [Boxless, Boxless, entriesBoxless_entryValuesBy, entriesBoxless_entryValuesBy]
    exact forall₂_congr fun p hp => and_congr_right' (ih element helement p hp)

theorem entriesBoxless_settledEntries {entries : Entries} :
    EntriesBoxless (settledEntries entries) ↔ EntriesBoxless (entryValuesBy Expr.value entries) := by
  rw [entriesBoxless_entryValuesBy, entriesBoxless_entryValuesBy]
  exact forall₂_congr fun p _ => and_congr_right' (boxless_valueBy Expr.boxless_settledValue p.2)

end Member

namespace Expr

open Value

variable {entries : List (Key × Expr)} {fields : List (Text × Text)}

theorem entriesBoxless_iff {entries : List (Key × Expr)} : EntriesBoxless (settledEntries entries) ↔
    ∀ p ∈ entries, p.1.name ≠ boxKey ∧ p.2.settledValue.Boxless := by
  induction entries with
  | nil => simp [settledEntries, EntriesBoxless]
  | cons p entries ih => rw [settledEntries, EntriesBoxless, ih, List.forall_mem_cons, and_assoc]

theorem boxless_replace (h : EntriesBoxless (settledEntries entries)) {name : Text}
    (change : Expr → Expr)
    (hchange : ∀ p ∈ entries, p.1.name = name → (change p.2).settledValue.Boxless) :
    EntriesBoxless (settledEntries (entries.map fun (key, old) =>
      if key.name = name then (key, change old) else (key, old))) := by
  rw [entriesBoxless_iff] at h ⊢
  intro p hp
  obtain ⟨q, hq, rfl⟩ := List.mem_map.mp hp
  obtain ⟨hkey, hold⟩ := h q hq
  by_cases hname : q.1.name = name
  · simp only [hname, if_true]
    exact ⟨hname ▸ hkey, hchange q hq hname⟩
  · simp only [hname, if_false]
    exact ⟨hkey, hold⟩

theorem boxless_set (h : EntriesBoxless (settledEntries entries)) {name : Text} (hname : name ≠ boxKey)
    (s : Text) : EntriesBoxless (settledEntries (set entries name s)) := by
  unfold set
  split
  · exact boxless_replace h (fun old => string s old.around) fun _ _ _ => trivial
  · rw [entriesBoxless_iff] at h ⊢
    rw [List.forall_mem_append, List.forall_mem_singleton]
    exact ⟨h, hname, trivial⟩

theorem boxless_setAll (h : EntriesBoxless (settledEntries entries))
    (hfields : ∀ field ∈ fields, field.1 ≠ boxKey) : EntriesBoxless (settledEntries
      (fields.foldl (fun entries (name, s) => Expr.set entries name s) entries)) := by
  induction fields generalizing entries with
  | nil => exact h
  | cons field fields ih =>
    obtain ⟨hfield, hfields⟩ := List.forall_mem_cons.mp hfields
    exact ih (boxless_set h hfield field.2) hfields

theorem update?_boxless {path : List Text} {e new : Expr} (h : e.update? fields path = some new)
    (hfields : ∀ field ∈ fields, field.1 ≠ boxKey) (he : e.settledValue.Boxless) :
    new.settledValue.Boxless := by
  induction path generalizing e new with
  | nil =>
    match e with
    | .scalar .. => cases h
    | .array .. => cases h
    | .table entries dotted lead around =>
      cases h
      exact boxless_setAll he hfields
  | cons name path ih =>
    match e with
    | .scalar .. => cases h
    | .array .. => cases h
    | .table entries dotted lead around =>
      rw [update?] at h
      split at h
      · cases h
      · next key old hfind =>
        obtain ⟨sub, hsub, rfl⟩ := Option.map_eq_some_iff.mp h
        have hold := entriesBoxless_iff.mp he _ (List.mem_of_find?_eq_some hfind)
        exact boxless_replace he (fun _ => sub) fun _ _ _ => ih hsub hold.2

end Expr

namespace Member

open Value

variable {entries : Entries} {fields : List (Text × Text)}

theorem boxless_replace (h : EntriesBoxless (settledEntries entries)) {name : Text} {member : Member}
    (hmember : member.settledValue.Boxless) :
    EntriesBoxless (settledEntries (entries.replace name member)) := by
  rw [entriesBoxless_entryValuesBy] at h ⊢
  intro p hp
  rcases Entries.mem_replace hp with ⟨hold, -⟩ | ⟨hnew, -, other, hother⟩
  · exact h p hold
  · exact ⟨(h _ hother).1, hnew ▸ hmember⟩

theorem boxless_set (h : EntriesBoxless (settledEntries entries)) {name : Text} (hname : name ≠ boxKey)
    (s : Text) : EntriesBoxless (settledEntries (entries.set name s)) := by
  unfold Entries.set
  split
  · exact boxless_replace h trivial
  · rw [entriesBoxless_entryValuesBy] at h ⊢
    rw [List.forall_mem_append, List.forall_mem_singleton]
    exact ⟨h, hname, trivial⟩

theorem boxless_setAll (h : EntriesBoxless (settledEntries entries))
    (hfields : ∀ field ∈ fields, field.1 ≠ boxKey) : EntriesBoxless (settledEntries
      (fields.foldl (fun entries (name, s) => Entries.set entries name s) entries)) := by
  induction fields generalizing entries with
  | nil => exact h
  | cons field fields ih =>
    obtain ⟨hfield, hfields⟩ := List.forall_mem_cons.mp hfields
    exact ih (boxless_set h hfield field.2) hfields

theorem update?_boxless {path : List Text} {member new : Member}
    (h : member.update? fields path = some new) (hfields : ∀ field ∈ fields, field.1 ≠ boxKey)
    (hmember : member.settledValue.Boxless) : new.settledValue.Boxless := by
  induction path generalizing member new with
  | nil =>
    match member with
    | .expr e =>
      obtain ⟨e', he, rfl⟩ := Option.map_eq_some_iff.mp h
      exact Expr.update?_boxless he hfields hmember
    | .table kind entries =>
      cases h
      exact boxless_setAll hmember hfields
    | .tables elements => cases h
  | cons name path ih =>
    match member with
    | .expr e =>
      obtain ⟨e', he, rfl⟩ := Option.map_eq_some_iff.mp h
      exact Expr.update?_boxless he hfields hmember
    | .table kind entries =>
      rw [update?] at h
      split at h
      · cases h
      · next old hget =>
        obtain ⟨sub, hsub, rfl⟩ := Option.map_eq_some_iff.mp h
        obtain ⟨key, hmem, -⟩ := Entries.exists_mem_of_get? hget
        have hold := entriesBoxless_entryValuesBy.mp hmember _ hmem
        exact boxless_replace hmember (ih hsub hold.2)
    | .tables elements => cases h

end Member

/-- Strings under other names put no box into a document. -/
theorem Document.update?_boxless {doc new : Document} {table : Text} {path : List Text}
    {fields : List (Text × Text)} (h : doc.update? table path fields = some new)
    (hfields : ∀ field ∈ fields, field.1 ≠ Value.boxKey) (hdoc : Value.EntriesBoxless doc.entries) :
    Value.EntriesBoxless (Member.settledEntries new.root) := by
  rw [entries, Member.entryValues_eq, ← Member.entriesBoxless_settledEntries] at hdoc
  unfold update? at h
  split at h
  · cases h
  · next member hget =>
    obtain ⟨sub, hsub, rfl⟩ := Option.map_eq_some_iff.mp h
    obtain ⟨key, hmem, -⟩ := Entries.exists_mem_of_get? hget
    have hold := Member.entriesBoxless_entryValuesBy.mp hdoc _ hmem
    exact Member.boxless_replace hdoc (Member.update?_boxless hsub hfields hold.2)

end DeploymentRecords.Toml
