import DeploymentRecords.Toml.Table

/-! # Names of entries

Entries are found by their names. Below are the names of entries after each change of them, and
what is found under a name afterwards. -/

namespace DeploymentRecords.Toml

variable {α : Type}

def names (entries : List (Key × α)) : List Text := entries.map (·.1.name)

theorem mem_names {name : Text} {entries : List (Key × α)} :
    name ∈ names entries ↔ ∃ p ∈ entries, p.1.name = name := by
  simp [names]

theorem any_name {name : Text} {entries : List (Key × α)} :
    entries.any (fun p => p.1.name = name) = true ↔ name ∈ names entries := by
  simp [mem_names]

theorem find?_name_eq_none {name : Text} {entries : List (Key × α)} :
    entries.find? (fun p => p.1.name = name) = none ↔ name ∉ names entries := by
  simp [mem_names]

theorem names_map {change : Key × α → Key × α} (h : ∀ p, (change p).1 = p.1)
    (entries : List (Key × α)) : names (entries.map change) = names entries := by
  simp [names, h]

theorem nodup_names_append {entries : List (Key × α)} {p : Key × α}
    (h : (names entries).Nodup) (hp : p.1.name ∉ names entries) :
    (names (entries ++ [p])).Nodup := by
  rw [names, List.map_append, List.map_singleton, List.nodup_append]
  refine ⟨h, by simp, fun a ha b hb => ?_⟩
  rw [List.mem_singleton.mp hb]
  rintro rfl
  exact hp ha

theorem replace_fresh {α : Type} {name : Text} {entries : List (Key × α)}
    (h : name ∉ names entries) (new : α) :
    (entries.map fun (key, old) => if key.name = name then (key, new) else (key, old)) = entries := by
  induction entries with
  | nil => rfl
  | cons p entries ih =>
    simp only [names, List.map_cons, List.mem_cons, not_or] at h
    rw [List.map_cons, ih h.2]
    simp [Ne.symm h.1]

theorem replace_last {α : Type} {key : Key} {entries : List (Key × α)} (h : key.name ∉ names entries)
    (old new : α) : ((entries ++ [(key, old)]).map fun (k, a) =>
      if k.name = key.name then (k, new) else (k, a)) = entries ++ [(key, new)] := by
  rw [List.map_append, replace_fresh h]
  simp

theorem eq_of_name_eq {entries : List (Key × α)} (h : (names entries).Nodup) {p q : Key × α}
    (hp : p ∈ entries) (hq : q ∈ entries) (hname : p.1.name = q.1.name) : p = q := by
  induction entries with
  | nil => cases hp
  | cons r entries ih =>
    obtain ⟨hr, hrest⟩ := List.nodup_cons.mp h
    have hnot : ∀ s ∈ entries, s.1.name ≠ r.1.name := fun s hs e =>
      hr (List.mem_map.mpr ⟨s, hs, e⟩)
    rcases List.mem_cons.mp hp with hpr | hp' <;> rcases List.mem_cons.mp hq with hqr | hq'
    · rw [hpr, hqr]
    · exact absurd (hpr ▸ hname.symm) (hnot q hq')
    · exact absurd (hqr ▸ hname) (hnot p hp')
    · exact ih hrest hp' hq'

namespace Entries

variable {entries : Entries} {member : Member} {key : Key} {x y : Text}

@[simp] theorem get?_nil : get? x [] = none := rfl

theorem get?_cons (p : Key × Member) (entries : Entries) :
    get? x (p :: entries) = if p.1.name = x then some p.2 else get? x entries := by
  rw [get?, List.find?_cons]
  by_cases h : p.1.name = x
  · simp [h]
  · simp [h, get?]

theorem get?_append (as bs : Entries) : get? x (as ++ bs) = (get? x as).or (get? x bs) := by
  rw [get?, List.find?_append, get?, get?]
  cases as.find? (fun p => p.1.name = x) <;> rfl

theorem get?_eq_none_iff : get? x entries = none ↔ x ∉ names entries := by
  rw [get?, Option.map_eq_none_iff, find?_name_eq_none]

theorem exists_mem_of_get? (h : get? x entries = some member) :
    ∃ key, (key, member) ∈ entries ∧ key.name = x := by
  obtain ⟨⟨key, m⟩, hfind, rfl⟩ := Option.map_eq_some_iff.mp h
  exact ⟨key, List.mem_of_find?_eq_some hfind, by simpa using List.find?_some hfind⟩

theorem get?_of_mem (hnodup : (names entries).Nodup) (h : (key, member) ∈ entries) :
    get? key.name entries = some member := by
  cases hget : get? key.name entries with
  | none => exact absurd (List.mem_map_of_mem h) (get?_eq_none_iff.mp hget)
  | some other =>
    obtain ⟨key', hmem, hname⟩ := exists_mem_of_get? hget
    rw [(Prod.mk.inj (eq_of_name_eq hnodup hmem h hname)).2]

@[simp] theorem names_replace : names (replace x member entries) = names entries := by
  unfold replace
  exact names_map (fun p => by dsimp only; split <;> rfl) entries

theorem replace_cons (p : Key × Member) (entries : Entries) : replace x member (p :: entries) =
    (if p.1.name = x then (p.1, member) else p) :: replace x member entries := rfl

theorem get?_replace : get? y (replace x member entries) =
    if y = x then (get? x entries).map fun _ => member else get? y entries := by
  induction entries with
  | nil => simp [replace]
  | cons p entries ih =>
    rw [replace_cons, get?_cons, ih, get?_cons, get?_cons]
    by_cases hx : p.1.name = x <;> by_cases hy : y = x
    · simp [hx, hy]
    · simp [hx, hy, Ne.symm hy]
    · simp [hx, hy]
    · simp [hx, hy]

theorem mem_replace {p : Key × Member} (h : p ∈ replace x member entries) :
    (p ∈ entries ∧ p.1.name ≠ x) ∨ (p.2 = member ∧ p.1.name = x ∧ ∃ old, (p.1, old) ∈ entries) := by
  obtain ⟨q, hq, rfl⟩ := List.mem_map.mp h
  by_cases hname : q.1.name = x
  · exact Or.inr (by simpa [hname] using ⟨q.2, hq⟩)
  · exact Or.inl (by simpa [hname] using hq)

theorem get?_erase : get? y (erase x entries) = if y = x then none else get? y entries := by
  induction entries with
  | nil => simp [erase]
  | cons p entries ih =>
    by_cases hx : p.1.name = x
    · have hcons : erase x (p :: entries) = erase x entries := List.filter_cons_of_neg (by simp [hx])
      rw [hcons, ih, get?_cons]
      by_cases hy : y = x
      · simp [hy]
      · simp [hx, hy, Ne.symm hy]
    · have hcons : erase x (p :: entries) = p :: erase x entries :=
        List.filter_cons_of_pos (by simp [hx])
      rw [hcons, get?_cons, ih, get?_cons]
      by_cases hy : y = x
      · simp [hy, hx]
      · simp [hy]

theorem mem_erase {p : Key × Member} : p ∈ erase x entries ↔ p ∈ entries ∧ p.1.name ≠ x := by
  simp [erase]

theorem nodup_names_erase (h : (names entries).Nodup) : (names (erase x entries)).Nodup :=
  h.sublist (List.filter_sublist.map _)

end Entries

end DeploymentRecords.Toml
