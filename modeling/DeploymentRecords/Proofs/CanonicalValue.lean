import DeploymentRecords.Toml.Value
import Mathlib.Data.Char
import Mathlib.Data.List.Lex
import Mathlib.Data.List.Nodup

/-! # Canonical values

A value without boxes is read as itself with the entries of every table in key order. Tables with
the same entries are read as the same value, whatever the order of their entries. -/

namespace DeploymentRecords

namespace Toml.Value

def KeyOrder (entries : List (Text × Value)) : Prop := entries.Pairwise fun a b => a.1 ≤ b.1

theorem keyOrder_insert {entry : Text × Value} {entries : List (Text × Value)} (h : KeyOrder entries) :
    KeyOrder (Sorting.insert (fun a b => a.1 < b.1) entry entries) := by
  induction entries with
  | nil => exact List.pairwise_singleton _ _
  | cons first entries ih =>
    obtain ⟨hfirst, hentries⟩ := List.pairwise_cons.mp h
    rw [Sorting.insert]
    split
    · next hlt =>
      refine List.pairwise_cons.mpr ⟨fun other hother => ?_, ih hentries⟩
      rcases Sorting.mem_insert.mp hother with rfl | hother
      · exact le_of_lt (of_decide_eq_true hlt)
      · exact hfirst other hother
    · next hle =>
      have hle : entry.1 ≤ first.1 := not_lt.mp fun hlt => hle (decide_eq_true hlt)
      refine List.pairwise_cons.mpr ⟨fun other hother => ?_, h⟩
      rcases List.mem_cons.mp hother with rfl | hother
      · exact hle
      · exact le_trans hle (hfirst other hother)

theorem keyOrder_sortEntries (entries : List (Text × Value)) : KeyOrder (sortEntries entries) := by
  induction entries with
  | nil => exact List.Pairwise.nil
  | cons entry entries ih => exact keyOrder_insert ih

theorem lookup_cons {β : Type} (x : Text) (entry : Text × β) (entries : List (Text × β)) :
    (entry :: entries).lookup x = if x = entry.1 then some entry.2 else entries.lookup x := by
  rw [List.lookup_cons]
  by_cases hx : x = entry.1
  · simp [hx]
  · rw [beq_false_of_ne hx, if_neg hx]

theorem lookup_insert (x : Text) (entry : Text × Value) (entries : List (Text × Value)) :
    (Sorting.insert (fun a b => a.1 < b.1) entry entries).lookup x =
      (entry :: entries).lookup x := by
  induction entries with
  | nil => rfl
  | cons first entries ih =>
    rw [Sorting.insert]
    split
    · next hlt =>
      have hne : first.1 ≠ entry.1 := ne_of_lt (of_decide_eq_true hlt)
      rw [lookup_cons, ih, lookup_cons, lookup_cons, lookup_cons]
      by_cases hx : x = entry.1
      · have hfirst : x ≠ first.1 := fun e => hne (e ▸ hx)
        rw [if_neg hfirst, if_pos hx, if_pos hx]
      · rw [if_neg hx, if_neg hx]
    · rfl

theorem lookup_sortEntries (x : Text) (entries : List (Text × Value)) :
    (sortEntries entries).lookup x = entries.lookup x := by
  induction entries with
  | nil => rfl
  | cons entry entries ih =>
    refine (lookup_insert x entry _).trans ?_
    rw [lookup_cons, lookup_cons]
    split
    · rfl
    · exact ih

theorem mem_of_lookup {β : Type} {x : Text} {v : β} {entries : List (Text × β)}
    (h : entries.lookup x = some v) : (x, v) ∈ entries := by
  induction entries with
  | nil => cases h
  | cons entry entries ih =>
    rw [lookup_cons] at h
    split at h
    · next heq =>
      subst heq
      obtain rfl := Option.some.inj h
      exact List.mem_cons_self
    · exact List.mem_cons_of_mem _ (ih h)

theorem lookup_of_mem {x : Text} {v : Value} {entries : List (Text × Value)}
    (hnodup : (entries.map Prod.fst).Nodup) (h : (x, v) ∈ entries) : entries.lookup x = some v := by
  induction entries with
  | nil => cases h
  | cons entry entries ih =>
    obtain ⟨hentry, hentries⟩ := List.nodup_cons.mp hnodup
    rw [lookup_cons]
    rcases List.mem_cons.mp h with rfl | h
    · exact if_pos rfl
    · have hne : x ≠ entry.1 := fun e => hentry (e ▸ List.mem_map_of_mem (f := Prod.fst) h)
      rw [if_neg hne, ih hentries h]

/-- Entries of unique keys are in key order determined by what they map to. -/
theorem sortEntries_eq {as bs : List (Text × Value)} (has : (as.map Prod.fst).Nodup)
    (hbs : (bs.map Prod.fst).Nodup) (h : ∀ x, as.lookup x = bs.lookup x) :
    sortEntries as = sortEntries bs := by
  have hmem : ∀ entry, entry ∈ as ↔ entry ∈ bs := fun entry =>
    ⟨fun hentry => mem_of_lookup (h entry.1 ▸ lookup_of_mem has hentry),
      fun hentry => mem_of_lookup ((h entry.1).symm ▸ lookup_of_mem hbs hentry)⟩
  have hsame : as.Perm bs :=
    (List.perm_ext_iff_of_nodup (List.Nodup.of_map _ has) (List.Nodup.of_map _ hbs)).mpr hmem
  have hperm : (sortEntries as).Perm (sortEntries bs) :=
    (Sorting.sort_perm _ as).trans (hsame.trans (Sorting.sort_perm _ bs).symm)
  have hunique : ∀ a b : Text × Value, a ∈ sortEntries as → b ∈ sortEntries bs → a.1 ≤ b.1 →
      b.1 ≤ a.1 → a = b := by
    intro a b ha hb hab hba
    have ha := lookup_of_mem has (Sorting.mem_sort.mp ha)
    have hb := lookup_of_mem has ((hmem b).mpr (Sorting.mem_sort.mp hb))
    rw [le_antisymm hab hba, hb] at ha
    exact Prod.ext (le_antisymm hab hba) (Option.some.inj ha).symm
  exact List.Perm.eq_of_pairwise hunique (keyOrder_sortEntries as) (keyOrder_sortEntries bs) hperm

mutual

/-- The value with the entries of every table in key order. -/
def canonical : Value → Value
  | .scalar s => .scalar s
  | .array elements => .array (canonicalAll elements)
  | .table entries => .table (sortEntries (canonicalEntries entries))

def canonicalAll : List Value → List Value
  | [] => []
  | v :: vs => canonical v :: canonicalAll vs

def canonicalEntries : List (Text × Value) → List (Text × Value)
  | [] => []
  | (key, v) :: entries => (key, canonical v) :: canonicalEntries entries

end

mutual

/-- No table of the value has the key of a box. -/
def Boxless : Value → Prop
  | .scalar _ => True
  | .array elements => AllBoxless elements
  | .table entries => EntriesBoxless entries

def AllBoxless : List Value → Prop
  | [] => True
  | v :: vs => Boxless v ∧ AllBoxless vs

def EntriesBoxless : List (Text × Value) → Prop
  | [] => True
  | (key, v) :: entries => key ≠ boxKey ∧ Boxless v ∧ EntriesBoxless entries

end

mutual

def decidableBoxless : (v : Value) → Decidable v.Boxless
  | .scalar _ => isTrue trivial
  | .array elements => decidableAllBoxless elements
  | .table entries => decidableEntriesBoxless entries

def decidableAllBoxless : (vs : List Value) → Decidable (AllBoxless vs)
  | [] => isTrue trivial
  | v :: vs => @instDecidableAnd _ _ (decidableBoxless v) (decidableAllBoxless vs)

def decidableEntriesBoxless : (entries : List (Text × Value)) → Decidable (EntriesBoxless entries)
  | [] => isTrue trivial
  | (_, v) :: entries => @instDecidableAnd _ _ inferInstance
    (@instDecidableAnd _ _ (decidableBoxless v) (decidableEntriesBoxless entries))

end

instance (entries : List (Text × Value)) : Decidable (EntriesBoxless entries) :=
  decidableEntriesBoxless entries

theorem boxed?_eq_none {entries : List (Text × Value)} (h : EntriesBoxless entries) :
    boxed? entries = none := by
  match entries with
  | [] => rfl
  | (key, v) :: entries => exact if_neg h.1

mutual

theorem unboxed?_eq : (v : Value) → v.Boxless → unboxed? v = some v.canonical
  | .scalar s, _ => rfl
  | .array elements, h => by
    rw [unboxed?, unboxedAll?_eq elements h, canonical]
    rfl
  | .table entries, h => by
    rw [unboxed?, boxed?_eq_none h, unboxedEntries?_eq entries h, canonical]
    rfl

theorem unboxedAll?_eq : (vs : List Value) → AllBoxless vs → unboxedAll? vs = some (canonicalAll vs)
  | [], _ => rfl
  | v :: vs, h => by
    rw [unboxedAll?, unboxed?_eq v h.1, unboxedAll?_eq vs h.2, canonicalAll]

theorem unboxedEntries?_eq : (entries : List (Text × Value)) → EntriesBoxless entries →
    unboxedEntries? entries = some (canonicalEntries entries)
  | [], _ => rfl
  | (key, v) :: entries, h => by
    rw [unboxedEntries?, unboxed?_eq v h.2.1, unboxedEntries?_eq entries h.2.2, canonicalEntries]

end

theorem map_fst_canonicalEntries (entries : List (Text × Value)) :
    (canonicalEntries entries).map Prod.fst = entries.map Prod.fst := by
  induction entries with
  | nil => rfl
  | cons entry entries ih => rw [canonicalEntries, List.map_cons, List.map_cons, ih]

theorem lookup_canonicalEntries (x : Text) (entries : List (Text × Value)) :
    (canonicalEntries entries).lookup x = (entries.lookup x).map canonical := by
  induction entries with
  | nil => rfl
  | cons entry entries ih =>
    rw [canonicalEntries, lookup_cons, lookup_cons, ih]
    split <;> rfl

end Toml.Value

end DeploymentRecords
