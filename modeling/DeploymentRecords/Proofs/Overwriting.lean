import DeploymentRecords.Proofs.EditedTree
import DeploymentRecords.Proofs.Meaning

/-! # Overwritten fields

What an edit does to the meaning of a document: the written fields of one table mean their last
strings, every other entry means what it meant before. -/

namespace DeploymentRecords.Toml

namespace Value

def field? (name : Text) (v : Value) : Option Value := v.asTable?.bind fun entries => entries.lookup name

/-- What a written string means once it is read back from a tidy text. -/
def written (s : Text) : Value := string (settled (quote s))

/-- The value `new` is `old`, but in the table at the end of the path every name of `fields` has
the last string that is written under it. -/
def Overwritten (fields : List (Text × Text)) : List Text → Value → Value → Prop
  | [], old, new =>
    (∃ entries, old = .table entries) ∧ (∃ entries, new = .table entries) ∧
      ∀ name, new.field? name = ((fields.reverse.lookup name).map written).or (old.field? name)
  | key :: path, old, new =>
    (∃ entries, old = .table entries) ∧ (∃ entries, new = .table entries) ∧
      (∀ name, name ≠ key → new.field? name = old.field? name) ∧
        ∃ v w, old.field? key = some v ∧ new.field? key = some w ∧ Overwritten fields path v w

@[simp] theorem field?_table (name : Text) (entries : List (Text × Value)) :
    (Value.table entries).field? name = entries.lookup name := rfl

theorem field?_canonical (name : Text) (v : Value) :
    v.canonical.field? name = (v.field? name).map canonical := by
  match v with
  | .scalar _ => rfl
  | .array _ => rfl
  | .table entries => rw [canonical, field?_table, lookup_sortEntries, lookup_canonicalEntries]; rfl

theorem exists_table_canonical {v : Value} (h : ∃ entries, v = .table entries) :
    ∃ entries, v.canonical = .table entries := by
  obtain ⟨entries, rfl⟩ := h
  exact ⟨_, rfl⟩

/-- Putting entries into key order does not matter. -/
theorem Overwritten.canonical {fields : List (Text × Text)} {path : List Text} {old new : Value}
    (h : Overwritten fields path old new) : Overwritten fields path old.canonical new.canonical := by
  induction path generalizing old new with
  | nil =>
    obtain ⟨hold, hnew, hfields⟩ := h
    refine ⟨exists_table_canonical hold, exists_table_canonical hnew, fun name => ?_⟩
    rw [field?_canonical, field?_canonical, hfields]
    cases fields.reverse.lookup name <;> rfl
  | cons table path ih =>
    obtain ⟨hold, hnew, hother, v, w, hv, hw, hrest⟩ := h
    refine ⟨exists_table_canonical hold, exists_table_canonical hnew, fun name hname => ?_,
      v.canonical, w.canonical, ?_, ?_, ih hrest⟩
    · rw [field?_canonical, field?_canonical, hother name hname]
    · rw [field?_canonical, hv]
      rfl
    · rw [field?_canonical, hw]
      rfl

end Value

namespace Expr

variable {entries : List (Key × Expr)} {fields : List (Text × Text)}

theorem settledValue_string (s : Text) (around : Option Surround) :
    (string s around).settledValue = Value.written s := rfl

theorem lookup_settledEntries (x : Text) (entries : List (Key × Expr)) :
    (settledEntries entries).lookup x =
      (entries.find? fun p => p.1.name = x).map fun p => p.2.settledValue := by
  induction entries with
  | nil => rfl
  | cons p entries ih =>
    rw [settledEntries, Value.lookup_cons, List.find?_cons, ih]
    by_cases hx : p.1.name = x
    · simp [hx]
    · simp [hx, Ne.symm hx]

theorem lookup_map (change : Expr → Expr) (name x : Text) :
    (settledEntries (entries.map fun (key, old) =>
      if key.name = name then (key, change old) else (key, old))).lookup x =
      if x = name then (entries.find? fun p => p.1.name = name).map fun p => (change p.2).settledValue
      else (settledEntries entries).lookup x := by
  induction entries with
  | nil => simp [settledEntries]
  | cons p entries ih =>
    obtain ⟨key, e⟩ := p
    rw [List.map_cons]
    by_cases hname : key.name = name
    · simp only [if_pos hname]
      rw [settledEntries, Value.lookup_cons, ih, List.find?_cons_of_pos (by simpa using hname),
        settledEntries, Value.lookup_cons]
      by_cases hx : x = name
      · rw [if_pos (hx.trans hname.symm), if_pos hx]
        rfl
      · have hkey : x ≠ key.name := fun e => hx (e.trans hname)
        rw [if_neg hkey, if_neg hx, if_neg hx, if_neg hkey]
    · simp only [if_neg hname]
      rw [settledEntries, Value.lookup_cons, ih, List.find?_cons_of_neg (by simpa using hname),
        settledEntries, Value.lookup_cons]
      by_cases hx : x = name
      · have hkey : x ≠ key.name := fun e => hname (e.symm.trans hx)
        rw [if_neg hkey, if_pos hx, if_pos hx]
      · rw [if_neg hx, if_neg hx]

theorem lookup_set (name s x : Text) : (settledEntries (set entries name s)).lookup x =
    if x = name then some (Value.written s) else (settledEntries entries).lookup x := by
  unfold set
  split
  · next hany =>
    rw [lookup_map fun old => string s old.around]
    split
    · cases hfind : entries.find? fun p => p.1.name = name with
      | none => exact absurd (any_name.mp hany) (find?_name_eq_none.mp hfind)
      | some p => rfl
    · rfl
  · next hany =>
    have hfresh := find?_name_eq_none.mpr (mt any_name.mpr hany)
    rw [lookup_settledEntries, lookup_settledEntries, List.find?_append]
    by_cases hx : x = name
    · subst hx
      rw [hfresh]
      simp [Key.new, settledValue_string]
    · simp [Key.new, hx, Ne.symm hx]

theorem lookup_setAll (fields : List (Text × Text)) (x : Text) :
    (settledEntries (fields.foldl (fun entries (name, s) => Expr.set entries name s) entries)).lookup x =
      ((fields.reverse.lookup x).map Value.written).or ((settledEntries entries).lookup x) := by
  induction fields generalizing entries with
  | nil => rfl
  | cons field fields ih =>
    rw [List.foldl_cons, ih, lookup_set, List.reverse_cons, List.lookup_append, Value.lookup_cons]
    cases fields.reverse.lookup x with
    | some s => rfl
    | none => by_cases hx : x = field.1 <;> simp [hx]

theorem update?_overwritten {path : List Text} {e new : Expr} (h : e.update? fields path = some new) :
    Value.Overwritten fields path e.settledValue new.settledValue := by
  induction path generalizing e new with
  | nil =>
    match e with
    | .scalar .. => cases h
    | .array .. => cases h
    | .table entries dotted lead around =>
      cases h
      exact ⟨⟨_, rfl⟩, ⟨_, rfl⟩, fun name => lookup_setAll fields name⟩
  | cons name path ih =>
    match e with
    | .scalar .. => cases h
    | .array .. => cases h
    | .table entries dotted lead around =>
      rw [update?] at h
      split at h
      · cases h
      · next key old hfind =>
        obtain ⟨sub, hsub, rfl⟩ := Option.map_eq_some_iff.mp h
        refine ⟨⟨_, rfl⟩, ⟨_, rfl⟩, fun x hx => ?_, old.settledValue, sub.settledValue, ?_, ?_, ih hsub⟩
        · exact (lookup_map (fun _ => sub) _ _).trans (if_neg hx)
        · rw [settledValue, Value.field?_table, lookup_settledEntries, hfind]
          rfl
        · refine (lookup_map (fun _ => sub) _ _).trans ?_
          rw [if_pos rfl, hfind]
          rfl

end Expr

namespace Member

variable {entries : Entries} {fields : List (Text × Text)}

/-- What a member means in a tidy text. -/
abbrev settledValue (member : Member) : Value := member.valueBy Expr.settledValue

abbrev settledEntries (entries : Entries) : List (Text × Value) :=
  entryValuesBy Expr.settledValue entries

theorem lookup_replace {name x : Text} {old new : Member} (hget : entries.get? name = some old) :
    (settledEntries (entries.replace name new)).lookup x =
      if x = name then some new.settledValue else (settledEntries entries).lookup x := by
  rw [lookup_entryValuesBy, Entries.get?_replace, lookup_entryValuesBy, hget]
  split <;> rfl

theorem lookup_set (name s x : Text) : (settledEntries (entries.set name s)).lookup x =
    if x = name then some (Value.written s) else (settledEntries entries).lookup x := by
  unfold Entries.set
  split
  · next old hget => exact lookup_replace hget
  · next hget =>
    rw [lookup_entryValuesBy, lookup_entryValuesBy, Entries.get?_append, Entries.get?_cons]
    by_cases hx : x = name
    · subst hx
      simp [hget, Key.new, valueBy, Expr.settledValue_string]
    · simp [Key.new, hx, Ne.symm hx]

theorem lookup_setAll (fields : List (Text × Text)) (x : Text) :
    (settledEntries (fields.foldl (fun entries (name, s) => Entries.set entries name s) entries)).lookup x =
      ((fields.reverse.lookup x).map Value.written).or ((settledEntries entries).lookup x) := by
  induction fields generalizing entries with
  | nil => rfl
  | cons field fields ih =>
    rw [List.foldl_cons, ih, lookup_set, List.reverse_cons, List.lookup_append, Value.lookup_cons]
    cases fields.reverse.lookup x with
    | some s => rfl
    | none => by_cases hx : x = field.1 <;> simp [hx]

theorem update?_overwritten {path : List Text} {member new : Member}
    (h : member.update? fields path = some new) :
    Value.Overwritten fields path member.settledValue new.settledValue := by
  induction path generalizing member new with
  | nil =>
    match member with
    | .expr e =>
      obtain ⟨e', he, rfl⟩ := Option.map_eq_some_iff.mp h
      exact Expr.update?_overwritten he
    | .table kind entries =>
      cases h
      exact ⟨⟨_, rfl⟩, ⟨_, rfl⟩, fun name => lookup_setAll fields name⟩
    | .tables elements => cases h
  | cons name path ih =>
    match member with
    | .expr e =>
      obtain ⟨e', he, rfl⟩ := Option.map_eq_some_iff.mp h
      exact Expr.update?_overwritten he
    | .table kind entries =>
      rw [update?] at h
      split at h
      · cases h
      · next old hget =>
        obtain ⟨sub, hsub, rfl⟩ := Option.map_eq_some_iff.mp h
        refine ⟨⟨_, rfl⟩, ⟨_, rfl⟩, fun x hx => ?_, old.settledValue, sub.settledValue, ?_, ?_, ih hsub⟩
        · exact (lookup_replace hget).trans (if_neg hx)
        · exact (lookup_entryValuesBy name entries).trans (by rw [hget]; rfl)
        · exact (lookup_replace hget).trans (if_pos rfl)
    | .tables elements => cases h

end Member

def Document.settledValue (doc : Document) : Value := .table (Member.settledEntries doc.root)

theorem Document.update?_overwritten {doc new : Document} {table : Text} {path : List Text}
    {fields : List (Text × Text)} (h : doc.update? table path fields = some new) :
    Value.Overwritten fields (table :: path) doc.settledValue new.settledValue := by
  unfold update? at h
  split at h
  · cases h
  · next member hget =>
    obtain ⟨sub, hsub, rfl⟩ := Option.map_eq_some_iff.mp h
    refine ⟨⟨_, rfl⟩, ⟨_, rfl⟩, fun x hx => ?_, member.settledValue, sub.settledValue, ?_, ?_,
      Member.update?_overwritten hsub⟩
    · exact (Member.lookup_replace hget).trans (if_neg hx)
    · exact (Member.lookup_entryValuesBy table doc.root).trans (by rw [hget]; rfl)
    · exact (Member.lookup_replace hget).trans (if_pos rfl)

end DeploymentRecords.Toml
