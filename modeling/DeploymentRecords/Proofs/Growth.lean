import DeploymentRecords.Proofs.EntryNames
import DeploymentRecords.Proofs.Outline
import DeploymentRecords.Proofs.StatementReading

/-! # Outlines of documents

Reading the statements of a document does to its outline what the deeds of these statements do, so
the outline depends on nothing but the shapes of the statements. -/

namespace DeploymentRecords.Toml

def TableKind.origin : TableKind → Origin
  | .headed _ => .headed
  | .implied => .implied
  | .dotted => .dotted

namespace Member

mutual

/-- The outline of a member whose expressions mean what `f` says. -/
def outline (f : Expr → Value) : Member → Outline
  | .expr e => .value (f e)
  | .table kind entries => .table kind.origin (outlines f entries)
  | .tables elements => .tables (elementOutlines f elements).reverse

def outlines (f : Expr → Value) : List (Key × Member) → Text → Option Outline
  | [], _ => none
  | (key, member) :: entries, x =>
    if key.name = x then some (outline f member) else outlines f entries x

def elementOutlines (f : Expr → Value) : List (Heading × List (Key × Member)) →
    List (Text → Option Outline)
  | [] => []
  | (_, entries) :: elements => outlines f entries :: elementOutlines f elements

end

variable {f : Expr → Value} {entries : Entries} {key : Key} {member old : Member} {x : Text}

theorem outlines_nil : outlines f [] = Outlines.empty := rfl

theorem outlines_apply (entries : Entries) (x : Text) :
    outlines f entries x = (entries.get? x).map (outline f) := by
  induction entries with
  | nil => rfl
  | cons p entries ih =>
    rw [outlines, Entries.get?_cons, ih]
    split <;> rfl

theorem elementOutlines_eq (elements : List (Heading × Entries)) :
    elementOutlines f elements = elements.map fun element => outlines f element.2 := by
  induction elements with
  | nil => rfl
  | cons element elements ih => rw [elementOutlines, ih]; rfl

theorem outline_tables_concat (elements : List (Heading × Entries)) (element : Heading × Entries) :
    outline f (.tables (elements ++ [element])) =
      .tables (outlines f element.2 :: (elementOutlines f elements).reverse) := by
  rw [outline, elementOutlines_eq, elementOutlines_eq, List.map_append, List.reverse_append]
  rfl

theorem outlines_append (h : entries.get? key.name = none) :
    outlines f (entries ++ [(key, member)]) = Outlines.set (outlines f entries) key.name (member.outline f) := by
  funext y
  rw [outlines_apply, Entries.get?_append, Entries.get?_cons, Outlines.set, outlines_apply]
  by_cases hy : y = key.name
  · subst hy
    simp [h]
  · simp [hy, Ne.symm hy]

theorem outlines_replace (h : entries.get? x = some old) :
    outlines f (entries.replace x member) = Outlines.set (outlines f entries) x (member.outline f) := by
  funext y
  rw [outlines_apply, Entries.get?_replace, Outlines.set, outlines_apply]
  by_cases hy : y = x <;> simp [hy, h]

theorem outlines_erase_append : outlines f (entries.erase key.name ++ [(key, member)]) =
    Outlines.set (outlines f entries) key.name (member.outline f) := by
  funext y
  rw [outlines_apply, Entries.get?_append, Entries.get?_erase, Entries.get?_cons, Outlines.set, outlines_apply]
  by_cases hy : y = key.name
  · simp [hy]
  · simp [hy, Ne.symm hy]

theorem assign?_outlines (direct : Bool) (key : Key) (path : List Key) (e : Expr) (entries : Entries) :
    (entries.assign? direct (key :: path) e).map (outlines f) =
      Outlines.change? key.name (assignSlot? direct (path.map Key.name) (f e)) (outlines f entries) := by
  induction path generalizing direct key entries with
  | nil =>
    rw [Entries.assign?, Outlines.change?, outlines_apply]
    cases hget : entries.get? key.name with
    | some member => simp [assignSlot?]
    | none =>
      cases direct with
      | false => simp [assignSlot?]
      | true => simp [assignSlot?, outlines_append hget, outline]
  | cons next path ih =>
    rw [Entries.assign?.eq_3 direct e entries key (next :: path) (by simp), Outlines.change?, outlines_apply,
      List.map_cons]
    cases hget : entries.get? key.name with
    | none =>
      have ih := ih true next []
      rw [outlines_nil] at ih
      simp only [Option.map_none, assignSlot?, ← ih, Option.map_map, Function.comp_def,
        outlines_append hget, outline, TableKind.origin]
    | some member =>
      cases member with
      | expr e => rfl
      | table kind sub =>
        cases kind with
        | headed h => rfl
        | dotted =>
          simp only [Option.map_some, outline, TableKind.origin, assignSlot?, ← ih, Option.map_map,
            Function.comp_def, outlines_replace hget]
        | implied =>
          simp only [Option.map_some, outline, TableKind.origin, assignSlot?, ← ih, Option.map_map,
            Function.comp_def, outlines_replace hget]
      | tables elements =>
        rcases List.eq_nil_or_concat elements with rfl | ⟨front, ⟨heading, sub⟩, rfl⟩
        · rfl
        · simp only [List.concat_eq_append, List.getLast?_concat, List.dropLast_concat,
            Option.map_some, outline_tables_concat, assignSlot?, ← ih,
            Option.map_map, Function.comp_def, outlines_replace hget]

theorem openTable?_outlines (heading : Heading) (key : Key) (entries : Entries) :
    (Entries.openTable? heading key entries).map (outlines f) =
      Outlines.change? key.name (Deed.header false).perform? (outlines f entries) := by
  rw [Entries.openTable?, Outlines.change?, outlines_apply]
  cases hget : entries.get? key.name with
  | none => simp [Deed.perform?, outlines_append hget, outline, TableKind.origin, outlines_nil]
  | some member =>
    cases member with
    | expr e => rfl
    | table kind sub =>
      cases kind with
      | headed h => rfl
      | dotted => rfl
      | implied => simp [Deed.perform?, outlines_erase_append, outline, TableKind.origin]
    | tables elements => simp [Deed.perform?, outline]

theorem openElement?_outlines (heading : Heading) (key : Key) (entries : Entries) :
    (Entries.openElement? heading key entries).map (outlines f) =
      Outlines.change? key.name (Deed.header true).perform? (outlines f entries) := by
  rw [Entries.openElement?, Outlines.change?, outlines_apply]
  cases hget : entries.get? key.name with
  | none => simp [Deed.perform?, outlines_append hget, outline, elementOutlines_eq, outlines_nil]
  | some member =>
    cases member with
    | expr e => rfl
    | table kind sub => cases kind <;> rfl
    | tables elements =>
      show some (outlines f (Entries.replace key.name (.tables (elements ++ [(heading, [])])) entries)) =
        some (Outlines.set (outlines f entries) key.name (.tables (Outlines.empty :: (elementOutlines f elements).reverse)))
      rw [outlines_replace hget, outline_tables_concat, outlines_nil]

theorem reach?_outlines {change : Entries → Option Entries} (op : Op)
    (hchange : ∀ entries, (change entries).map (outlines f) =
      Outlines.change? op.1 op.2.perform? (outlines f entries)) (path : List Key) (entries : Entries) :
    (Entries.reach? change path entries).map (outlines f) =
      Outlines.change? (placed (path.map Key.name) op).1 (placed (path.map Key.name) op).2.perform?
        (outlines f entries) := by
  induction path generalizing entries with
  | nil => exact hchange entries
  | cons key path ih =>
    let inner := placed (path.map Key.name) op
    have hinner : placed ((key :: path).map Key.name) op = (key.name, .inside inner.1 inner.2) := by
      cases path <;> rfl
    rw [hinner, Entries.reach?, Outlines.change?, outlines_apply]
    cases hget : entries.get? key.name with
    | none =>
      have ih := ih []
      rw [outlines_nil] at ih
      simp only [Option.map_none, Deed.perform?, ← ih, inner, Option.map_map, Function.comp_def,
        outlines_append hget, outline, TableKind.origin]
    | some member =>
      cases member with
      | expr e => rfl
      | table kind sub =>
        simp only [Option.map_some, outline, Deed.perform?, ← ih, inner, Option.map_map,
          Function.comp_def, outlines_replace hget]
      | tables elements =>
        rcases List.eq_nil_or_concat elements with rfl | ⟨front, ⟨heading, sub⟩, rfl⟩
        · rfl
        · simp only [List.concat_eq_append, List.getLast?_concat, List.dropLast_concat,
            Option.map_some, outline_tables_concat, Deed.perform?, ← ih, inner,
            Option.map_map, Function.comp_def, outlines_replace hget]

end Member

def Shape.path : Shape → List Text
  | .header _ path => path
  | .assign path _ => path

def opsOf : List Text → List Shape → List Op
  | _, [] => []
  | current, .header _ [] :: shapes => opsOf current shapes
  | _, .header array (x :: path) :: shapes =>
    (x, .through path (.header array)) :: opsOf (x :: path) shapes
  | current, .assign [] _ :: shapes => opsOf current shapes
  | current, .assign (x :: path) v :: shapes =>
    placed current (x, .assign path v) :: opsOf current shapes

namespace Document

theorem add?_header (draft : Draft) (array : Bool) (path : List Key) (key : Key) (around : Surround) :
    ∃ change, (∀ entries, (change entries).map (Member.outlines Expr.value) =
        Outlines.change? key.name (Deed.header array).perform? (Member.outlines Expr.value entries)) ∧
      draft.add? (.header array (path ++ [key]) around) = (Entries.reach? change path draft.root).map
        fun root => ⟨root, path ++ [key], draft.headers + 1⟩ := by
  simp only [Draft.add?, List.getLast?_concat, List.dropLast_concat]
  cases array
  · exact ⟨_, Member.openTable?_outlines _ key, rfl⟩
  · exact ⟨_, Member.openElement?_outlines _ key, rfl⟩

/-- Reading statements does their deeds. -/
theorem foldlM_add?_outlines {sts : List Statement} (h : ∀ st ∈ sts, st.shape.path ≠ []) (draft : Draft) :
    (sts.foldlM Draft.add? draft).map (fun draft => Member.outlines Expr.value draft.root) =
      Outlines.run? (opsOf (draft.current.map Key.name) (sts.map Statement.shape))
        (Member.outlines Expr.value draft.root) := by
  induction sts generalizing draft with
  | nil => rfl
  | cons st sts ih =>
    obtain ⟨hst, hsts⟩ := List.forall_mem_cons.mp h
    have ih := fun draft => ih hsts draft
    cases st with
    | header array path around =>
      rcases List.eq_nil_or_concat path with rfl | ⟨init, key, rfl⟩
      · exact absurd rfl hst
      · rw [List.concat_eq_append]
        obtain ⟨change, hchange, hadd⟩ := add?_header draft array init key around
        -- a header acts on the whole tree, an assignment below the current table
        have hreach := Member.reach?_outlines (key.name, .header array) hchange init draft.root
        obtain ⟨x, path, hpath⟩ : ∃ x path, (init ++ [key]).map Key.name = x :: path :=
          List.exists_cons_of_ne_nil (by simp)
        have hplaced : placed (init.map Key.name) (key.name, .header array) =
            (x, .through path (.header array)) := placed_concat (by simpa using hpath) _
        rw [hplaced] at hreach
        rw [List.map_cons, Statement.shape, hpath, opsOf, List.foldlM_cons, hadd, Outlines.run?,
          List.foldlM_cons, ← hreach]
        cases Entries.reach? change init draft.root with
        | none => rfl
        | some root =>
          have ih := ih ⟨root, init ++ [key], draft.headers + 1⟩
          rw [hpath] at ih
          exact ih
    | assign path e =>
      cases path with
      | nil => exact absurd rfl hst
      | cons key path =>
        have hreach := Member.reach?_outlines (f := Expr.value)
          (key.name, .assign (path.map Key.name) e.value)
          (Member.assign?_outlines true key path e) draft.current draft.root
        rw [List.map_cons, Statement.shape, List.map_cons, opsOf, List.foldlM_cons, Draft.add?,
          Outlines.run?, List.foldlM_cons, ← hreach]
        cases Entries.reach? (Entries.assign? true (key :: path) e) draft.current draft.root with
        | none => rfl
        | some root => exact ih { draft with root }

/-- The outline of a document is what the shapes of its statements make of it. -/
theorem ofStatements?_outlines {sts : List Statement} (h : ∀ st ∈ sts, st.shape.path ≠ []) :
    (ofStatements? sts).map (Member.outlines Expr.value) =
      Outlines.empty.run? (opsOf [] (sts.map Statement.shape)) := by
  rw [ofStatements?, Option.map_map]
  exact foldlM_add?_outlines h Draft.empty

end Document

end DeploymentRecords.Toml
