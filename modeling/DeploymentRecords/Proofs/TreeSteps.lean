import DeploymentRecords.Proofs.EntryNames
import DeploymentRecords.Toml.Document

/-! # What a statement does to a tree

Every change that reading a document makes to its tree, as a relation between the entries before
and after. An invariant of documents is preserved by each of them. -/

namespace DeploymentRecords.Toml

/-- Induction over a member and all that it holds. -/
theorem Member.induct {P : Member → Prop} (hexpr : ∀ e, P (.expr e))
    (htable : ∀ kind (entries : Entries), (∀ p ∈ entries, P p.2) → P (.table kind entries))
    (htables : ∀ elements : List (Heading × Entries),
      (∀ element ∈ elements, ∀ p ∈ element.2, P p.2) → P (.tables elements)) :
    ∀ member, P member
  | .expr e => hexpr e
  | .table kind entries => htable kind entries fun p _ => Member.induct hexpr htable htables p.2
  | .tables elements => htables elements fun element _ p _ => Member.induct hexpr htable htables p.2
termination_by member => sizeOf member
decreasing_by
  · have := List.sizeOf_lt_of_mem ‹p ∈ entries›
    obtain ⟨key, member⟩ := p
    simp only [Member.table.sizeOf_spec, Prod.mk.sizeOf_spec] at this ⊢
    omega
  · have := List.sizeOf_lt_of_mem ‹p ∈ element.2›
    have := List.sizeOf_lt_of_mem ‹element ∈ elements›
    obtain ⟨key, member⟩ := p
    obtain ⟨heading, entries⟩ := element
    simp only [Member.tables.sizeOf_spec, Prod.mk.sizeOf_spec] at *
    omega

inductive Reached (change : Entries → Entries → Prop) : List Key → Entries → Entries → Prop where
  | here {entries new : Entries} : change entries new → Reached change [] entries new
  | fresh {entries sub : Entries} {key : Key} {path : List Key} : entries.get? key.name = none →
      Reached change path [] sub →
      Reached change (key :: path) entries (entries ++ [(key, .table .implied sub)])
  | table {entries old sub : Entries} {key : Key} {path : List Key} {kind : TableKind} :
      entries.get? key.name = some (.table kind old) → Reached change path old sub →
      Reached change (key :: path) entries (entries.replace key.name (.table kind sub))
  | element {entries old sub : Entries} {key : Key} {path : List Key} {heading : Heading}
      {front : List (Heading × Entries)} :
      entries.get? key.name = some (.tables (front ++ [(heading, old)])) →
      Reached change path old sub →
      Reached change (key :: path) entries
        (entries.replace key.name (.tables (front ++ [(heading, sub)])))

inductive Opens (heading : Heading) (key : Key) : Entries → Entries → Prop where
  | table {entries : Entries} : entries.get? key.name = none →
      Opens heading key entries (entries ++ [(key, .table (.headed heading) [])])
  | complete {entries sub : Entries} : entries.get? key.name = some (.table .implied sub) →
      Opens heading key entries (entries.erase key.name ++ [(key, .table (.headed heading) sub)])
  | array {entries : Entries} : entries.get? key.name = none →
      Opens heading key entries (entries ++ [(key, .tables [(heading, [])])])
  | element {entries : Entries} {elements : List (Heading × Entries)} :
      entries.get? key.name = some (.tables elements) →
      Opens heading key entries (entries.replace key.name (.tables (elements ++ [(heading, [])])))

inductive Assigns (e : Expr) : Bool → List Key → Entries → Entries → Prop where
  | leaf {entries : Entries} {key : Key} : entries.get? key.name = none →
      Assigns e true [key] entries (entries ++ [(key, .expr e)])
  | fresh {direct : Bool} {entries sub : Entries} {key : Key} {path : List Key} :
      entries.get? key.name = none → Assigns e true path [] sub →
      Assigns e direct (key :: path) entries (entries ++ [(key, .table .dotted sub)])
  | table {direct direct' : Bool} {entries old sub : Entries} {key : Key} {path : List Key}
      {kind : TableKind} : entries.get? key.name = some (.table kind old) →
      (∀ heading, kind ≠ .headed heading) → Assigns e direct' path old sub →
      Assigns e direct (key :: path) entries (entries.replace key.name (.table kind sub))
  | element {direct : Bool} {entries old sub : Entries} {key : Key} {path : List Key}
      {heading : Heading} {front : List (Heading × Entries)} :
      entries.get? key.name = some (.tables (front ++ [(heading, old)])) →
      Assigns e false path old sub →
      Assigns e direct (key :: path) entries
        (entries.replace key.name (.tables (front ++ [(heading, sub)])))

namespace Entries

theorem getLast?_elements {elements : List (Heading × Entries)} {element : Heading × Entries}
    (h : elements.getLast? = some element) : elements = elements.dropLast ++ [element] := by
  obtain ⟨front, rfl⟩ := List.getLast?_eq_some_iff.mp h
  rw [List.dropLast_concat]

theorem reached_of_reach? {change : Entries → Option Entries} {path : List Key}
    {entries new : Entries} (h : reach? change path entries = some new) :
    Reached (fun entries new => change entries = some new) path entries new := by
  induction path generalizing entries new with
  | nil => exact .here h
  | cons key path ih =>
    rw [reach?] at h
    split at h
    · next hget =>
      obtain ⟨sub, hsub, rfl⟩ := Option.map_eq_some_iff.mp h
      exact .fresh hget (ih hsub)
    · next kind old hget =>
      obtain ⟨sub, hsub, rfl⟩ := Option.map_eq_some_iff.mp h
      exact .table hget (ih hsub)
    · next elements hget =>
      split at h
      · cases h
      · next heading old hlast =>
        obtain ⟨sub, hsub, rfl⟩ := Option.map_eq_some_iff.mp h
        rw [getLast?_elements hlast] at hget
        exact .element hget (ih hsub)
    · cases h

theorem opens_of_openTable? {heading : Heading} {key : Key} {entries new : Entries}
    (h : openTable? heading key entries = some new) : Opens heading key entries new := by
  unfold openTable? at h
  split at h
  · next hget => exact Option.some.inj h ▸ .table hget
  · next sub hget => exact Option.some.inj h ▸ .complete hget
  · cases h

theorem opens_of_openElement? {heading : Heading} {key : Key} {entries new : Entries}
    (h : openElement? heading key entries = some new) : Opens heading key entries new := by
  unfold openElement? at h
  split at h
  · next hget => exact Option.some.inj h ▸ .array hget
  · next elements hget => exact Option.some.inj h ▸ .element hget
  · cases h

theorem assigns_of_assign? {direct : Bool} {path : List Key} {e : Expr} {entries new : Entries}
    (h : assign? direct path e entries = some new) : Assigns e direct path entries new := by
  induction path generalizing direct entries new with
  | nil => cases h
  | cons key path ih =>
    cases path with
    | nil =>
      rw [assign?] at h
      split at h
      · next hfree =>
        obtain ⟨rfl, hget⟩ := hfree
        exact Option.some.inj h ▸ .leaf (Option.isNone_iff_eq_none.mp hget)
      · cases h
    | cons next path =>
      rw [assign?.eq_3 direct e entries key (next :: path) (by simp)] at h
      split at h
      · next hget =>
        obtain ⟨sub, hsub, rfl⟩ := Option.map_eq_some_iff.mp h
        exact .fresh hget (ih hsub)
      · next old hget =>
        obtain ⟨sub, hsub, rfl⟩ := Option.map_eq_some_iff.mp h
        exact .table hget (by simp) (ih hsub)
      · next old hget =>
        obtain ⟨sub, hsub, rfl⟩ := Option.map_eq_some_iff.mp h
        exact .table hget (by simp) (ih hsub)
      · next elements hget =>
        split at h
        · cases h
        · next heading old hlast =>
          obtain ⟨sub, hsub, rfl⟩ := Option.map_eq_some_iff.mp h
          rw [getLast?_elements hlast] at hget
          exact .element hget (ih hsub)
      · cases h

end Entries

theorem Reached.mono {R S : Entries → Entries → Prop} (hRS : ∀ entries new, R entries new → S entries new)
    {path : List Key} {entries new : Entries} (h : Reached R path entries new) :
    Reached S path entries new := by
  induction h with
  | here h => exact .here (hRS _ _ h)
  | fresh hget _ ih => exact .fresh hget ih
  | table hget _ ih => exact .table hget ih
  | element hget _ ih => exact .element hget ih

/-- The two kinds of steps by which a document is built. -/
theorem Document.add?_cases {draft draft' : Draft} {st : Statement} (h : draft.add? st = some draft') :
    (∃ array init key around, st = .header array (init ++ [key]) around ∧
      draft'.current = init ++ [key] ∧ draft'.headers = draft.headers + 1 ∧
      Reached (Opens ⟨around, draft.headers + 1⟩ key) init draft.root draft'.root) ∨
    ∃ path e, st = .assign path e ∧ draft'.current = draft.current ∧
      draft'.headers = draft.headers ∧
      Reached (Assigns e true path) draft.current draft.root draft'.root := by
  cases st with
  | header array path around =>
    left
    simp only [Draft.add?] at h
    split at h
    · cases h
    · next key hlast =>
      obtain ⟨root, hroot, rfl⟩ := Option.map_eq_some_iff.mp h
      obtain ⟨init, rfl⟩ := List.getLast?_eq_some_iff.mp hlast
      refine ⟨array, init, key, around, rfl, rfl, rfl, ?_⟩
      rw [List.dropLast_concat] at hroot
      refine (Entries.reached_of_reach? hroot).mono fun entries new hnew => ?_
      cases array
      · exact Entries.opens_of_openTable? hnew
      · exact Entries.opens_of_openElement? hnew
  | assign path e =>
    right
    obtain ⟨root, hroot, rfl⟩ := Option.map_eq_some_iff.mp h
    exact ⟨path, e, rfl, rfl, rfl,
      (Entries.reached_of_reach? hroot).mono fun _ _ => Entries.assigns_of_assign?⟩

/-- What every statement preserves holds in the end. -/
theorem Document.foldlM_add?_invariant (Inv : Draft → Prop) {sts : List Statement}
    (hstep : ∀ st ∈ sts, ∀ draft draft', draft.add? st = some draft' → Inv draft → Inv draft')
    {draft draft' : Draft} (h : sts.foldlM Draft.add? draft = some draft') (hinv : Inv draft) :
    Inv draft' := by
  induction sts generalizing draft with
  | nil => exact Option.some.inj h ▸ hinv
  | cons st sts ih =>
    rw [List.foldlM_cons] at h
    obtain ⟨next, hnext, hrest⟩ := Option.bind_eq_some_iff.mp h
    obtain ⟨hst, hsts⟩ := List.forall_mem_cons.mp hstep
    exact ih hsts hrest (hst draft next hnext hinv)

end DeploymentRecords.Toml
