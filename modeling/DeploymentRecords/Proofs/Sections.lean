import DeploymentRecords.Proofs.ChangedFiles

/-! # Tables below a path

A change is accepted just if its path leads to a table, which the meaning of the document shows as
well as its tree: tables under headers, implied, dotted and inline ones are tables of its meaning,
and nothing else is. -/

namespace DeploymentRecords

open Toml

namespace Toml.Value

variable {names path : List Text} {u v w : Value}

def HasTable (path : List Text) (v : Value) : Prop := ∃ entries, v.at? path = some (.table entries)

theorem hasTable_nil : v.HasTable [] ↔ ∃ entries, v = .table entries := by
  simp only [HasTable, at?, Option.some.injEq]

theorem hasTable_cons {name : Text} :
    v.HasTable (name :: path) ↔ ∃ w, v.field? name = some w ∧ w.HasTable path := by
  simp only [HasTable, at?, Option.bind_eq_some_iff]
  exact exists_comm.trans (exists_congr fun w => exists_and_left)

theorem exists_table_canonical_iff : (∃ entries, v.canonical = .table entries) ↔
    ∃ entries, v = .table entries := by
  constructor
  · rintro ⟨entries, h⟩
    cases v with
    | scalar s => cases h
    | array elements => cases h
    | table entries => exact ⟨entries, rfl⟩
  · exact exists_table_canonical

theorem hasTable_canonical : v.canonical.HasTable path ↔ v.HasTable path := by
  induction path generalizing v with
  | nil => rw [hasTable_nil, hasTable_nil, exists_table_canonical_iff]
  | cons name path ih =>
    rw [hasTable_cons, hasTable_cons, field?_canonical]
    simp only [Option.map_eq_some_iff]
    constructor
    · rintro ⟨_, ⟨w, hw, rfl⟩, h⟩
      exact ⟨w, hw, ih.mp h⟩
    · rintro ⟨w, hw, h⟩
      exact ⟨_, ⟨w, hw, rfl⟩, ih.mpr h⟩

theorem SameBut.hasTable_iff (h : SameBut [] [] v w) : w.HasTable path ↔ v.HasTable path := by
  obtain ⟨hv, hw, hfields⟩ := h
  cases path with
  | nil => exact iff_of_true (hasTable_nil.mpr hw) (hasTable_nil.mpr hv)
  | cons name path => rw [hasTable_cons, hasTable_cons, hfields name List.not_mem_nil]

/-- Writing strings into a table makes and unmakes no table on the way to it or beside it. -/
theorem Overwritten.hasTable_iff {fields : List (Text × Text)} {goal : List Text}
    (h : Overwritten fields path v w) (hlength : goal.length ≤ path.length) :
    w.HasTable goal ↔ v.HasTable goal := by
  induction goal generalizing path v w with
  | nil =>
    cases path with
    | nil => exact iff_of_true (hasTable_nil.mpr h.2.1) (hasTable_nil.mpr h.1)
    | cons key path => exact iff_of_true (hasTable_nil.mpr h.2.1) (hasTable_nil.mpr h.1)
  | cons name goal ih =>
    cases path with
    | nil => exact absurd hlength (by simp)
    | cons key path =>
      obtain ⟨-, -, hother, v', w', hv', hw', hrest⟩ := h
      rw [hasTable_cons, hasTable_cons]
      by_cases hname : name = key
      · subst hname
        rw [hv', hw']
        simpa only [Option.some.injEq, exists_eq_left'] using ih hrest (Nat.le_of_succ_le_succ hlength)
      · rw [hother name hname]

end Toml.Value

namespace Toml

structure Expr.TableLike (f : Expr → Value) : Prop where
  scalar : ∀ v w around, (f (.scalar v w around)).asTable? = none
  array : ∀ elements comma trail around, (f (.array elements comma trail around)).asTable? = none
  table : ∀ entries dotted lead around, f (.table entries dotted lead around) = Value.ofEntries f entries

theorem Expr.tableLike_value : TableLike value :=
  ⟨fun _ _ _ => rfl, fun _ _ _ _ => rfl, fun _ _ _ _ => value_table⟩

theorem Expr.tableLike_settledValue : TableLike settledValue :=
  ⟨fun _ _ _ => rfl, fun _ _ _ _ => rfl, fun _ _ _ _ => settledValue_table⟩

theorem Value.not_hasTable {v : Value} (h : v.asTable? = none) (path : List Text) : ¬ v.HasTable path := by
  cases path with
  | nil =>
    rw [hasTable_nil]
    rintro ⟨entries, rfl⟩
    cases h
  | cons name path =>
    rw [hasTable_cons, field?, h]
    rintro ⟨w, hw, -⟩
    cases hw

theorem Value.field?_ofEntries_find? {α : Type} (f : α → Value) (name : Text) (entries : List (Key × α)) :
    (ofEntries f entries).field? name = (entries.find? fun p => p.1.name = name).map fun p => f p.2 := by
  rw [ofEntries, field?_table]
  induction entries with
  | nil => rfl
  | cons p entries ih =>
    rw [List.map_cons, lookup_cons, ih, List.find?_cons]
    by_cases hname : p.1.name = name
    · simp [hname]
    · simp [hname, Ne.symm hname]

variable {f : Expr → Value} {fields : List (Text × Text)} {path : List Text}

theorem Expr.update?_isSome_iff (hf : TableLike f) {e : Expr} :
    (e.update? fields path).isSome ↔ (f e).HasTable path := by
  induction path generalizing e with
  | nil =>
    cases e with
    | scalar v w around => exact iff_of_false (by simp [update?]) (Value.not_hasTable (hf.scalar _ _ _) [])
    | array => exact iff_of_false (by simp [update?]) (Value.not_hasTable (hf.array _ _ _ _) [])
    | table => exact iff_of_true rfl (Value.hasTable_nil.mpr ⟨_, hf.table _ _ _ _⟩)
  | cons name path ih =>
    cases e with
    | scalar v w around => exact iff_of_false (by simp [update?]) (Value.not_hasTable (hf.scalar _ _ _) _)
    | array => exact iff_of_false (by simp [update?]) (Value.not_hasTable (hf.array _ _ _ _) _)
    | table entries dotted lead around =>
      rw [hf.table, Value.hasTable_cons, Value.field?_ofEntries_find?, update?]
      cases hfind : entries.find? fun p => p.1.name = name with
      | none => simp
      | some p => simpa using ih

/-- A tree takes strings at the end of a path just if it means a table there. -/
theorem Member.update?_isSome_iff (hf : Expr.TableLike f) {member : Member} :
    (member.update? fields path).isSome ↔ (member.valueBy f).HasTable path := by
  induction path generalizing member with
  | nil =>
    cases member with
    | expr e => simpa [update?, valueBy] using Expr.update?_isSome_iff hf
    | table => exact iff_of_true rfl (Value.hasTable_nil.mpr ⟨_, rfl⟩)
    | tables => exact iff_of_false (by simp [update?]) (Value.not_hasTable rfl [])
  | cons name path ih =>
    cases member with
    | expr e => simpa [update?, valueBy] using Expr.update?_isSome_iff hf
    | table kind entries =>
      rw [valueBy, Value.hasTable_cons, Value.field?_table, lookup_entryValuesBy, update?]
      cases hget : Entries.get? name entries with
      | none => simp
      | some old => simpa using ih
    | tables => exact iff_of_false (by simp [update?]) (Value.not_hasTable rfl _)

theorem Document.update?_isSome_iff (hf : Expr.TableLike f) {doc : Document} {table : Text} :
    (doc.update? table path fields).isSome ↔
      (Value.table (Member.entryValuesBy f doc.root)).HasTable (table :: path) := by
  rw [Value.hasTable_cons, Value.field?_table, Member.lookup_entryValuesBy, update?]
  cases hget : doc.root.get? table with
  | none => simp
  | some member => simpa using Member.update?_isSome_iff hf

end Toml

theorem Records.section?_eq_none_iff {records : Records} {network : Text} :
    records.section? network = none ↔
      ¬ (Value.table records.deployments).HasTable [Plan.networksKey, network] := by
  have hnone : ∀ v : Value, v.asTable? = none ↔ ¬ ∃ entries, v = .table entries := by
    intro v
    cases v <;> simp [Value.asTable?]
  rw [Value.hasTable_cons, Value.field?_table, section?]
  cases records.deployments.lookup Plan.networksKey with
  | none => simp
  | some v =>
    rw [Option.bind_some]
    cases v with
    | scalar s => simp [Value.asTable?, Value.hasTable_cons, Value.field?]
    | array elements => simp [Value.asTable?, Value.hasTable_cons, Value.field?]
    | table networks =>
      simp only [Value.asTable?, Option.some.injEq, exists_eq_left', Value.hasTable_cons,
        Value.field?_table, Value.hasTable_nil]
      cases networks.lookup network with
      | none => simp
      | some w => simpa using hnone w

end DeploymentRecords
