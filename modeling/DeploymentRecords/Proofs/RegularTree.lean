import DeploymentRecords.Proofs.TreeSteps

/-! # Regular trees

The structure of the tree of a document, which its statements build and which no change of values
destroys. -/

namespace DeploymentRecords.Toml

namespace Member

mutual

/-- What the tree of a document is like, with its headings at positions from `lo` on and before
`hi`: names are unique, only headed tables are empty, and an element of an array of tables is
complete before the next one begins. -/
def Regular (lo hi : Nat) : Member → Prop
  | .expr _ => True
  | .table kind entries =>
    (∀ heading, kind = .headed heading → lo ≤ heading.position ∧ heading.position < hi) ∧
      (entries = [] → ∃ heading, kind = .headed heading) ∧ (names entries).Nodup ∧
      EntriesRegular lo hi entries
  | .tables elements => elements ≠ [] ∧ ElementsRegular lo hi elements

def EntriesRegular (lo hi : Nat) : List (Key × Member) → Prop
  | [] => True
  | (_, member) :: entries => member.Regular lo hi ∧ EntriesRegular lo hi entries

def ElementsRegular (lo hi : Nat) : List (Heading × List (Key × Member)) → Prop
  | [] => True
  | (heading, entries) :: elements =>
    ∃ mid, lo ≤ heading.position ∧ heading.position < mid ∧ mid ≤ hi ∧ (names entries).Nodup ∧
      EntriesRegular heading.position mid entries ∧ ElementsRegular mid hi elements

end

theorem entriesRegular_iff {lo hi : Nat} {entries : Entries} :
    EntriesRegular lo hi entries ↔ ∀ p ∈ entries, p.2.Regular lo hi := by
  induction entries with
  | nil => simp [EntriesRegular]
  | cons p entries ih => rw [EntriesRegular, ih, List.forall_mem_cons]

theorem ElementsRegular.entries {lo hi : Nat} {elements : List (Heading × Entries)}
    (h : ElementsRegular lo hi elements) : ∀ element ∈ elements, ∃ lo hi,
      (names element.2).Nodup ∧ EntriesRegular lo hi element.2 := by
  induction elements generalizing lo with
  | nil => exact fun _ helement => (by cases helement)
  | cons element elements ih =>
    obtain ⟨heading, entries⟩ := element
    obtain ⟨mid, -, -, -, hnodup, hentries, hrest⟩ := h
    rw [List.forall_mem_cons]
    exact ⟨⟨_, mid, hnodup, hentries⟩, ih hrest⟩

theorem ElementsRegular.mono {lo hi hi' : Nat} {elements : List (Heading × Entries)}
    (h : ElementsRegular lo hi elements) (hle : hi ≤ hi') : ElementsRegular lo hi' elements := by
  induction elements generalizing lo with
  | nil => trivial
  | cons element elements ih =>
    obtain ⟨heading, entries⟩ := element
    obtain ⟨mid, hlo, hmid, hhi, hnodup, hentries, hrest⟩ := h
    exact ⟨mid, hlo, hmid, Nat.le_trans hhi hle, hnodup, hentries, ih hrest⟩

theorem Regular.mono {lo hi hi' : Nat} {member : Member} (h : member.Regular lo hi) (hle : hi ≤ hi') :
    member.Regular lo hi' := by
  induction member using Member.induct with
  | hexpr e => trivial
  | htable kind entries ih =>
    obtain ⟨hkind, hempty, hnodup, hentries⟩ := h
    rw [entriesRegular_iff] at hentries
    refine ⟨fun heading hheading => ?_, hempty, hnodup,
      entriesRegular_iff.mpr fun p hp => ih p hp (hentries p hp)⟩
    have := hkind heading hheading
    omega
  | htables elements _ => exact ⟨h.1, h.2.mono hle⟩

end Member

namespace Entries

structure Regular (lo hi : Nat) (entries : Entries) : Prop where
  nodup : (names entries).Nodup
  members : ∀ p ∈ entries, p.2.Regular lo hi

variable {lo hi hi' : Nat} {entries : Entries} {member : Member} {key : Key} {name : Text}

theorem regular_nil : Regular lo hi [] := ⟨List.nodup_nil, by simp⟩

theorem Regular.mono (h : entries.Regular lo hi) (hle : hi ≤ hi') : entries.Regular lo hi' :=
  ⟨h.nodup, fun p hp => (h.members p hp).mono hle⟩

theorem Regular.of_get? (h : entries.Regular lo hi) (hget : entries.get? name = some member) :
    member.Regular lo hi := by
  obtain ⟨key, hmem, -⟩ := exists_mem_of_get? hget
  exact h.members _ hmem

theorem Regular.append (h : entries.Regular lo hi) (hfresh : entries.get? key.name = none)
    (hmember : member.Regular lo hi) : Regular lo hi (entries ++ [(key, member)]) := by
  refine ⟨nodup_names_append h.nodup (get?_eq_none_iff.mp hfresh), ?_⟩
  rw [List.forall_mem_append, List.forall_mem_singleton]
  exact ⟨h.members, hmember⟩

theorem Regular.replace (h : entries.Regular lo hi) (hmember : member.Regular lo hi) :
    Regular lo hi (entries.replace name member) := by
  refine ⟨by rw [names_replace]; exact h.nodup, fun p hp => ?_⟩
  rcases mem_replace hp with ⟨hold, -⟩ | ⟨hnew, -, -⟩
  · exact h.members p hold
  · exact hnew ▸ hmember

theorem Regular.erase (h : entries.Regular lo hi) : Regular lo hi (entries.erase name) :=
  ⟨nodup_names_erase h.nodup, fun p hp => h.members p (mem_erase.mp hp).1⟩

theorem replace_ne_nil (hget : entries.get? name = some member) {new : Member} :
    entries.replace name new ≠ [] := by
  rintro hnil
  have := List.map_eq_nil_iff.mp hnil
  rw [this] at hget
  cases hget

end Entries

namespace Member

variable {lo hi hi' : Nat} {heading : Heading} {old sub : Entries}
  {front elements : List (Heading × Entries)}

theorem regular_table {kind : TableKind} (h : sub.Regular lo hi) (hempty : sub ≠ [])
    (hkind : ∀ heading, kind = .headed heading → lo ≤ heading.position ∧ heading.position < hi) :
    (Member.table kind sub).Regular lo hi :=
  ⟨hkind, fun hnil => absurd hnil hempty, h.nodup, entriesRegular_iff.mpr h.members⟩

theorem Regular.entries {kind : TableKind} (h : (Member.table kind sub).Regular lo hi) :
    sub.Regular lo hi :=
  ⟨h.2.2.1, entriesRegular_iff.mp h.2.2.2⟩

/-- The last element of an array of tables may grow. -/
theorem ElementsRegular.last (h : ElementsRegular lo hi (front ++ [(heading, old)])) :
    heading.position < hi ∧ old.Regular heading.position hi ∧
      ∀ {hi' sub}, hi ≤ hi' → Entries.Regular heading.position hi' sub →
        ElementsRegular lo hi' (front ++ [(heading, sub)]) := by
  induction front generalizing lo with
  | nil =>
    obtain ⟨mid, hlo, hmid, hhi, hnodup, hentries, -⟩ := h
    have hold : old.Regular heading.position mid := ⟨hnodup, entriesRegular_iff.mp hentries⟩
    refine ⟨Nat.lt_of_lt_of_le hmid hhi, hold.mono hhi, fun {hi' sub} hle hsub => ?_⟩
    exact ⟨hi', hlo, by omega, Nat.le_refl _, hsub.nodup, entriesRegular_iff.mpr hsub.members, trivial⟩
  | cons element front ih =>
    obtain ⟨first, entries⟩ := element
    obtain ⟨mid, hlo, hmid, hhi, hnodup, hentries, hrest⟩ := h
    obtain ⟨hlt, hold, hnew⟩ := ih hrest
    exact ⟨hlt, hold, fun {hi' sub} hle hsub =>
      ⟨mid, hlo, hmid, Nat.le_trans hhi hle, hnodup, hentries, hnew hle hsub⟩⟩

theorem ElementsRegular.append (h : ElementsRegular lo hi elements) (hlo : lo ≤ hi)
    (hheading : hi ≤ heading.position) :
    ElementsRegular lo (heading.position + 1) (elements ++ [(heading, [])]) := by
  induction elements generalizing lo with
  | nil =>
    exact ⟨heading.position + 1, Nat.le_trans hlo hheading, by omega, Nat.le_refl _,
      List.nodup_nil, trivial, trivial⟩
  | cons element elements ih =>
    obtain ⟨first, entries⟩ := element
    obtain ⟨mid, hfirst, hmid, hhi, hnodup, hentries, hrest⟩ := h
    exact ⟨mid, hfirst, hmid, by omega, hnodup, hentries, ih hrest hhi⟩

end Member

theorem Opens.regular {heading : Heading} {key : Key} {entries new : Entries}
    (h : Opens heading key entries new) {lo hi : Nat} (hlo : lo ≤ hi) (hheading : heading.position = hi)
    (hentries : entries.Regular lo hi) : new.Regular lo (hi + 1) ∧ new ≠ [] := by
  have hmono := hentries.mono (Nat.le_succ hi)
  have hkind : ∀ other, TableKind.headed heading = .headed other →
      lo ≤ other.position ∧ other.position < hi + 1 := by
    rintro other ⟨⟩
    omega
  cases h with
  | table hget =>
    exact ⟨hmono.append hget ⟨hkind, fun _ => ⟨heading, rfl⟩, List.nodup_nil, trivial⟩, by simp⟩
  | @complete sub hget =>
    have hsub := (hentries.of_get? hget).entries.mono (Nat.le_succ hi)
    refine ⟨hmono.erase.append ?_ ⟨hkind, fun _ => ⟨heading, rfl⟩, hsub.nodup,
      Member.entriesRegular_iff.mpr hsub.members⟩, by simp⟩
    rw [Entries.get?_erase, if_pos rfl]
  | array hget =>
    refine ⟨hmono.append hget ⟨by simp, hi + 1, by omega, by omega, Nat.le_refl _, List.nodup_nil,
      trivial, trivial⟩, by simp⟩
  | element hget =>
    have hnew := (hentries.of_get? hget).2.append hlo (Nat.le_of_eq hheading.symm)
    rw [hheading] at hnew
    exact ⟨hmono.replace ⟨by simp, hnew⟩, Entries.replace_ne_nil hget⟩

theorem Assigns.regular {e : Expr} {direct : Bool} {path : List Key} {entries new : Entries}
    (h : Assigns e direct path entries new) {lo hi : Nat} (hentries : entries.Regular lo hi) :
    new.Regular lo hi ∧ new ≠ [] := by
  induction h generalizing lo hi with
  | leaf hget => exact ⟨hentries.append hget trivial, by simp⟩
  | fresh hget _ ih =>
    obtain ⟨hsub, hne⟩ := ih Entries.regular_nil
    exact ⟨hentries.append hget (Member.regular_table hsub hne (by simp)), by simp⟩
  | table hget hkind _ ih =>
    obtain ⟨hsub, hne⟩ := ih (hentries.of_get? hget).entries
    exact ⟨hentries.replace (Member.regular_table hsub hne fun heading he => absurd he (hkind heading)),
      Entries.replace_ne_nil hget⟩
  | element hget _ ih =>
    obtain ⟨-, hold, hnew⟩ := (hentries.of_get? hget).2.last
    exact ⟨hentries.replace ⟨by simp, hnew (Nat.le_refl _) (ih hold).1⟩, Entries.replace_ne_nil hget⟩

theorem Reached.regular {change : Entries → Entries → Prop} {hi hi' : Nat} (hle : hi ≤ hi')
    (hchange : ∀ {lo entries new}, lo ≤ hi → entries.Regular lo hi → change entries new →
      new.Regular lo hi' ∧ new ≠ [])
    {path : List Key} {entries new : Entries} (h : Reached change path entries new) {lo : Nat}
    (hlo : lo ≤ hi) (hentries : entries.Regular lo hi) : new.Regular lo hi' ∧ new ≠ [] := by
  induction h generalizing lo with
  | here h => exact hchange hlo hentries h
  | fresh hget _ ih =>
    obtain ⟨hsub, hne⟩ := ih hlo Entries.regular_nil
    exact ⟨(hentries.mono hle).append hget (Member.regular_table hsub hne (by simp)), by simp⟩
  | table hget _ ih =>
    have hold := hentries.of_get? hget
    obtain ⟨hsub, hne⟩ := ih hlo hold.entries
    refine ⟨(hentries.mono hle).replace (Member.regular_table hsub hne fun heading he => ?_),
      Entries.replace_ne_nil hget⟩
    have := hold.1 heading he
    omega
  | element hget _ ih =>
    obtain ⟨hlt, hold, hnew⟩ := (hentries.of_get? hget).2.last
    exact ⟨(hentries.mono hle).replace ⟨by simp, hnew hle (ih (Nat.le_of_lt hlt) hold).1⟩,
      Entries.replace_ne_nil hget⟩

theorem Document.add?_regular {draft draft' : Draft} {st : Statement} (h : draft.add? st = some draft')
    (hregular : draft.root.Regular 0 (draft.headers + 1)) : draft'.root.Regular 0 (draft'.headers + 1) := by
  rcases add?_cases h with ⟨_, _, _, _, _, _, hheaders, hreached⟩ | ⟨_, _, _, _, hheaders, hreached⟩
  · rw [hheaders]
    exact (hreached.regular (Nat.le_succ _) (fun hlo hentries hopens =>
      hopens.regular hlo rfl hentries) (Nat.zero_le _) hregular).1
  · rw [hheaders]
    exact (hreached.regular (Nat.le_refl _) (fun _ hentries hassigns =>
      hassigns.regular hentries) (Nat.zero_le _) hregular).1

end DeploymentRecords.Toml
