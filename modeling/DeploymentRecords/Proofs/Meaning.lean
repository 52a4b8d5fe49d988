import DeploymentRecords.Proofs.CanonicalValue
import DeploymentRecords.Proofs.Growth
import DeploymentRecords.Proofs.RegularTree

/-! # Meanings of trees

Two regular trees of the same outline mean the same canonical value, however their tables came
to be. -/

namespace DeploymentRecords.Toml

namespace Member

mutual

/-- What a member means if its expressions mean what `f` says. -/
def valueBy (f : Expr → Value) : Member → Value
  | .expr e => f e
  | .table _ entries => .table (entryValuesBy f entries)
  | .tables elements => .array (elementValuesBy f elements)

def entryValuesBy (f : Expr → Value) : List (Key × Member) → List (Text × Value)
  | [] => []
  | (key, member) :: entries => (key.name, valueBy f member) :: entryValuesBy f entries

def elementValuesBy (f : Expr → Value) : List (Heading × List (Key × Member)) → List Value
  | [] => []
  | (_, entries) :: elements => .table (entryValuesBy f entries) :: elementValuesBy f elements

end

mutual

theorem value_eq : (member : Member) → member.value = member.valueBy Expr.value
  | .expr e => rfl
  | .table kind entries => by rw [value, valueBy, entryValues_eq]
  | .tables elements => by rw [value, valueBy, elementValues_eq]

theorem entryValues_eq : (entries : List (Key × Member)) →
    entryValues entries = entryValuesBy Expr.value entries
  | [] => rfl
  | (key, member) :: entries => by rw [entryValues, entryValuesBy, value_eq, entryValues_eq]

theorem elementValues_eq : (elements : List (Heading × List (Key × Member))) →
    elementValues elements = elementValuesBy Expr.value elements
  | [] => rfl
  | (heading, entries) :: elements => by
    rw [elementValues, elementValuesBy, entryValues_eq, elementValues_eq]

end

variable {f g : Expr → Value}

theorem map_fst_entryValuesBy (entries : Entries) :
    (entryValuesBy f entries).map Prod.fst = names entries := by
  induction entries with
  | nil => rfl
  | cons p entries ih => rw [entryValuesBy, List.map_cons, ih]; rfl

theorem lookup_entryValuesBy (x : Text) (entries : Entries) :
    (entryValuesBy f entries).lookup x = (entries.get? x).map (valueBy f) := by
  induction entries with
  | nil => rfl
  | cons p entries ih =>
    rw [entryValuesBy, Value.lookup_cons, Entries.get?_cons, ih]
    by_cases hx : p.1.name = x
    · rw [if_pos hx.symm, if_pos hx]
      rfl
    · rw [if_neg (Ne.symm hx), if_neg hx]

def Determined (f g : Expr → Value) (member : Member) : Prop :=
  ∀ other : Member, (∃ lo hi, member.Regular lo hi) → (∃ lo hi, other.Regular lo hi) →
    (member.outline f).plain = (other.outline g).plain →
      (member.valueBy f).canonical = (other.valueBy g).canonical

theorem lookup_determined {entries others : Entries} {lo hi lo' hi' : Nat}
    (ih : ∀ p ∈ entries, Determined f g p.2) (hentries : entries.Regular lo hi)
    (hothers : others.Regular lo' hi') (h : Outlines.plain (outlines f entries) = Outlines.plain (outlines g others))
    (x : Text) : (Value.canonicalEntries (entryValuesBy f entries)).lookup x =
      (Value.canonicalEntries (entryValuesBy g others)).lookup x := by
  have hx := congrFun h x
  rw [Outlines.plain, Outlines.plain, outlines_apply, outlines_apply] at hx
  rw [Value.lookup_canonicalEntries, Value.lookup_canonicalEntries, lookup_entryValuesBy,
    lookup_entryValuesBy]
  cases hmember : entries.get? x with
  | none =>
    cases hother : others.get? x with
    | none => rfl
    | some other =>
      rw [hmember, hother] at hx
      cases hx
  | some member =>
    cases hother : others.get? x with
    | none =>
      rw [hmember, hother] at hx
      cases hx
    | some other =>
      rw [hmember, hother] at hx
      obtain ⟨key, hmem, -⟩ := Entries.exists_mem_of_get? hmember
      have := ih _ hmem other ⟨_, _, hentries.of_get? hmember⟩ ⟨_, _, hothers.of_get? hother⟩
        (Option.some.inj hx)
      exact congrArg some this

theorem canonical_determined {entries others : Entries} {lo hi lo' hi' : Nat}
    (ih : ∀ p ∈ entries, Determined f g p.2) (hentries : entries.Regular lo hi)
    (hothers : others.Regular lo' hi') (h : Outlines.plain (outlines f entries) = Outlines.plain (outlines g others)) :
    (Value.table (entryValuesBy f entries)).canonical =
      (Value.table (entryValuesBy g others)).canonical := by
  rw [Value.canonical, Value.canonical]
  refine congrArg Value.table (Value.sortEntries_eq ?_ ?_ (lookup_determined ih hentries hothers h))
  · rw [Value.map_fst_canonicalEntries, map_fst_entryValuesBy]
    exact hentries.nodup
  · rw [Value.map_fst_canonicalEntries, map_fst_entryValuesBy]
    exact hothers.nodup

theorem canonicalAll_determined {elements others : List (Heading × Entries)}
    (ih : ∀ element ∈ elements, ∀ p ∈ element.2, Determined f g p.2)
    (helements : ∀ element ∈ elements, ∃ lo hi, element.2.Regular lo hi)
    (hothers : ∀ element ∈ others, ∃ lo hi, element.2.Regular lo hi)
    (h : elements.map (fun element => Outlines.plain (outlines f element.2)) =
      others.map fun element => Outlines.plain (outlines g element.2)) :
    Value.canonicalAll (elementValuesBy f elements) = Value.canonicalAll (elementValuesBy g others) := by
  induction elements generalizing others with
  | nil =>
    cases others with
    | nil => rfl
    | cons _ _ => cases h
  | cons element elements ihs =>
    cases others with
    | nil => cases h
    | cons other others =>
      obtain ⟨hfirst, hrest⟩ := List.cons.inj h
      rw [List.forall_mem_cons] at ih helements hothers
      obtain ⟨⟨lo, hi, hregular⟩, helements⟩ := helements
      obtain ⟨⟨lo', hi', hregular'⟩, hothers⟩ := hothers
      have hvalue := canonical_determined ih.1 hregular hregular' hfirst
      rw [elementValuesBy, elementValuesBy, Value.canonicalAll, Value.canonicalAll, hvalue,
        ihs ih.2 helements hothers hrest]

theorem determined (member : Member) : Determined f g member := by
  induction member using Member.induct with
  | hexpr e =>
    intro other _ _ h
    cases other with
    | expr e' =>
      simp only [outline, Outline.plain, Outline.value.injEq] at h
      simp only [valueBy, h]
    | table => simp [outline, Outline.plain] at h
    | tables => simp [outline, Outline.plain] at h
  | htable kind entries ih =>
    rintro other ⟨lo, hi, hentries⟩ ⟨lo', hi', hother⟩ h
    cases other with
    | expr => simp [outline, Outline.plain] at h
    | table kind' others =>
      rw [outline, outline, Outline.plain_table, Outline.plain_table, Outline.table.injEq] at h
      exact canonical_determined ih hentries.entries hother.entries h.2
    | tables => simp [outline, Outline.plain] at h
  | htables elements ih =>
    rintro other ⟨lo, hi, hwhole⟩ ⟨lo', hi', hother⟩ h
    cases other with
    | expr => simp [outline, Outline.plain] at h
    | table => simp [outline, Outline.plain] at h
    | tables others =>
      rw [outline, outline, Outline.plain_tables, Outline.plain_tables, Outline.tables.injEq,
        List.map_reverse, List.map_reverse, List.reverse_inj, elementOutlines_eq, elementOutlines_eq,
        List.map_map, List.map_map] at h
      have hregular : ∀ {lo hi elements}, ElementsRegular lo hi elements →
          ∀ element ∈ elements, ∃ lo hi, Entries.Regular lo hi element.2 := by
        intro lo hi elements helements element helement
        obtain ⟨lo, hi, hnodup, hentries⟩ := helements.entries element helement
        exact ⟨lo, hi, hnodup, entriesRegular_iff.mp hentries⟩
      rw [valueBy, valueBy, Value.canonical, Value.canonical]
      exact congrArg Value.array
        (canonicalAll_determined ih (hregular hwhole.2) (hregular hother.2) h)

end Member

end DeploymentRecords.Toml
