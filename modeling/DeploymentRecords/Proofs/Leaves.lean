import DeploymentRecords.Proofs.Passages
import DeploymentRecords.Proofs.Rebuilding
import DeploymentRecords.Proofs.StatementReading
import Mathlib.Data.List.Perm.Basic

/-! # Leaves

The expressions of a tree, each with the names that lead to it. However the tables of a document are
spread over headers and dotted keys, its statements assign just the leaves of its tree. -/

namespace DeploymentRecords.Toml

namespace Member

mutual

def leaves : Member → List (List Text × Expr)
  | .expr e => [([], e)]
  | .table _ entries => entriesLeaves entries
  | .tables elements => elementsLeaves elements

def entriesLeaves : List (Key × Member) → List (List Text × Expr)
  | [] => []
  | (key, member) :: entries =>
    (member.leaves.map fun leaf => (key.name :: leaf.1, leaf.2)) ++ entriesLeaves entries

def elementsLeaves : List (Heading × List (Key × Member)) → List (List Text × Expr)
  | [] => []
  | (_, entries) :: elements => entriesLeaves entries ++ elementsLeaves elements

end

theorem entriesLeaves_flatMap (entries : Entries) : entriesLeaves entries =
    entries.flatMap fun p => p.2.leaves.map fun leaf => (p.1.name :: leaf.1, leaf.2) := by
  induction entries with
  | nil => rfl
  | cons p entries ih => rw [entriesLeaves, ih]; rfl

theorem elementsLeaves_flatMap (elements : List (Heading × Entries)) :
    elementsLeaves elements = elements.flatMap fun element => entriesLeaves element.2 := by
  induction elements with
  | nil => rfl
  | cons element elements ih => rw [elementsLeaves, ih]; rfl

theorem entriesLeaves_append (as bs : Entries) :
    entriesLeaves (as ++ bs) = entriesLeaves as ++ entriesLeaves bs := by
  rw [entriesLeaves_flatMap, entriesLeaves_flatMap, entriesLeaves_flatMap, List.flatMap_append]

theorem leaves_tables (elements : List (Heading × Entries)) (heading : Heading) (sub : Entries) :
    (Member.tables (elements ++ [(heading, sub)])).leaves =
      (Member.tables elements).leaves ++ entriesLeaves sub := by
  rw [leaves, leaves, elementsLeaves_flatMap, elementsLeaves_flatMap, List.flatMap_append,
    List.flatMap_singleton]

theorem mem_entriesLeaves {entries : Entries} {leaf : List Text × Expr} : leaf ∈ entriesLeaves entries ↔
    ∃ p ∈ entries, ∃ below ∈ p.2.leaves, (p.1.name :: below.1, below.2) = leaf := by
  rw [entriesLeaves_flatMap, List.mem_flatMap]
  simp only [List.mem_map]

def named (path : List Text) (body : List (List Key × Expr)) : List (List Text × Expr) :=
  body.map fun q => (path ++ q.1.map Key.name, q.2)

def Block.leaves (block : Block) : List (List Text × Expr) :=
  named (block.path.map Key.name) block.body

theorem named_entriesBody (entries : Entries) : named [] (entriesBody [] entries) =
    entries.flatMap fun p => (named [] (p.2.body [])).map fun leaf => (p.1.name :: leaf.1, leaf.2) := by
  rw [named, entriesBody_eq, List.map_flatMap]
  refine List.flatMap_congr fun p _ => ?_
  rw [named, List.map_map, List.map_map]
  rfl

theorem flatMap_leaves_blocks (entries : Entries) : (entriesBlocks [] entries).flatMap Block.leaves =
    entries.flatMap fun p =>
      ((p.2.blocks []).flatMap Block.leaves).map fun leaf => (p.1.name :: leaf.1, leaf.2) := by
  rw [entriesBlocks_eq, List.flatMap_assoc]
  refine List.flatMap_congr fun p _ => ?_
  rw [List.flatMap_map, List.map_flatMap]
  refine List.flatMap_congr fun block _ => ?_
  rw [Block.leaves, Block.leaves, named, named, List.map_map]
  rfl

/-- The leaves of a member are in the body around it and in its blocks. -/
theorem leaves_perm (member : Member) :
    member.leaves.Perm (named [] (member.body []) ++ (member.blocks []).flatMap Block.leaves) := by
  have hentries : ∀ entries : Entries, (∀ p ∈ entries, p.2.leaves.Perm
      (named [] (p.2.body []) ++ (p.2.blocks []).flatMap Block.leaves)) → (entriesLeaves entries).Perm
        (named [] (entriesBody [] entries) ++ (entriesBlocks [] entries).flatMap Block.leaves) := by
    intro entries ih
    rw [entriesLeaves_flatMap, named_entriesBody, flatMap_leaves_blocks]
    refine List.Perm.trans (List.Perm.flatMap_left _ fun p hp => ?_)
      (List.flatMap_append_perm entries _ _).symm
    rw [← List.map_append]
    exact (ih p hp).map _
  induction member using induct with
  | hexpr e => exact .refl _
  | htable kind entries ih =>
    have := hentries entries ih
    cases kind with
    | dotted => exact this
    | implied => exact this
    | headed heading => exact this
  | htables elements ih =>
    rw [leaves, elementsLeaves_flatMap, blocks, elementBlocks_flatMap, List.flatMap_assoc]
    exact List.Perm.flatMap_left _ fun element helement => hentries element.2 (ih element helement)

theorem entriesLeaves_perm (entries : Entries) : (entriesLeaves entries).Perm
    (named [] (entriesBody [] entries) ++ (entriesBlocks [] entries).flatMap Block.leaves) :=
  leaves_perm (.table .dotted entries)

end Member

open Member

def Line.leaves (path : List Text) : List Line → List (List Text × Expr)
  | [] => []
  | .header path _ :: lines => leaves path lines
  | .assign below _ e :: lines => (path ++ below, e) :: leaves path lines

theorem Line.leaves_append (path : List Text) (body : List (List Key × Expr)) (lines : List Line) :
    leaves path (body.map assignLine ++ lines) = named path body ++ leaves path lines := by
  induction body with
  | nil => rfl
  | cons q body ih =>
    rw [List.map_cons, List.cons_append, assignLine, Statement.line, leaves, ih]
    rfl

namespace Document

theorem leaves_blockStatements (first : Bool) (path : List Text) (blocks : List Block) :
    Line.leaves path ((blockStatements first blocks).map Statement.line) = blocks.flatMap Block.leaves := by
  induction blocks generalizing first path with
  | nil => rfl
  | cons block blocks ih =>
    rw [blockStatements, List.flatMap_cons]
    cases hheading : block.heading with
    | some heading =>
      simp only [List.map_append, List.map_cons, List.cons_append, map_line_assigns, Statement.line]
      rw [Line.leaves, Line.leaves_append, ih false]
      rfl
    | none =>
      by_cases hbody : block.body = []
      · simp only [hbody, if_true, Block.leaves, named, List.map_nil, List.nil_append]
        exact ih first path
      · simp only [hbody, if_false, List.map_append, List.map_cons, List.cons_append, map_line_assigns,
          Statement.line]
        rw [Line.leaves, Line.leaves_append, ih false]
        rfl

/-- The statements of a document assign the leaves of its tree, in some order. -/
theorem leaves_statements (doc : Document) :
    (Line.leaves [] (doc.statements.map Statement.line)).Perm (entriesLeaves doc.root) := by
  rw [statements, List.map_append, map_line_assigns, Line.leaves_append, leaves_blockStatements]
  exact (((ordered_perm doc.root).flatMap_right _).append_left _).trans (entriesLeaves_perm doc.root).symm

end Document

section drafts

variable {entries new : Entries} {key : Key} {path : List Key} {heading : Heading} {lo hi : Nat}

theorem leaves_concat (entries : Entries) (key : Key) (member : Member) :
    entriesLeaves (entries ++ [(key, member)]) =
      entriesLeaves entries ++ member.leaves.map fun leaf => (key.name :: leaf.1, leaf.2) := by
  rw [entriesLeaves_append, entriesLeaves, entriesLeaves, List.append_nil]

theorem leaves_replace {name : Text} {old : Member} (hregular : entries.Regular lo hi)
    (hget : entries.get? name = some old) (member : Member) (extra : List (List Text × Expr))
    (h : member.leaves.Perm (old.leaves ++ extra)) : (entriesLeaves (entries.replace name member)).Perm
      (entriesLeaves entries ++ extra.map fun leaf => (name :: leaf.1, leaf.2)) := by
  obtain ⟨key, as, bs, -, hsplit⟩ := Entries.exists_split_of_get? hregular.nodup hget
  rw [hsplit.replace, hsplit.split, entriesLeaves_append, entriesLeaves_append, entriesLeaves,
    entriesLeaves, hsplit.key_name]
  refine perm_middle ?_
  rw [← List.map_append]
  exact h.map _

theorem Opens.leaves (h : Opens heading key entries new) (hregular : entries.Regular lo hi) :
    (entriesLeaves new).Perm (entriesLeaves entries) := by
  cases h with
  | table =>
    rw [leaves_concat]
    exact List.append_nil _ ▸ .refl _
  | @complete sub hget =>
    obtain ⟨k, as, bs, -, hsplit⟩ := Entries.exists_split_of_get? hregular.nodup hget
    rw [leaves_concat, hsplit.erase, hsplit.split, entriesLeaves_append, entriesLeaves_append,
      entriesLeaves, hsplit.key_name, List.append_assoc]
    exact List.perm_append_comm.append_left _
  | array =>
    rw [leaves_concat]
    exact List.append_nil _ ▸ .refl _
  | @element elements hget =>
    have h := leaves_replace hregular hget (.tables (elements ++ [(heading, [])])) []
      (by rw [leaves_tables]; exact .refl _)
    rwa [List.map_nil, List.append_nil] at h

theorem Assigns.leaves {e : Expr} {direct : Bool} (h : Assigns e direct path entries new)
    (hregular : entries.Regular lo hi) :
    (entriesLeaves new).Perm (entriesLeaves entries ++ [(path.map Key.name, e)]) := by
  induction h generalizing lo hi with
  | leaf =>
    rw [leaves_concat]
    exact .refl _
  | fresh _ _ ih =>
    rw [leaves_concat]
    exact ((ih (@Entries.regular_nil lo hi)).map _).append_left _
  | @table _ _ _ _ sub _ _ kind hget _ _ ih =>
    exact leaves_replace hregular hget (.table kind sub) [_] (ih (hregular.of_get? hget).entries)
  | @element _ _ _ sub _ path heading front hget _ ih =>
    refine leaves_replace hregular hget (.tables (front ++ [(heading, sub)])) [(path.map Key.name, e)] ?_
    rw [leaves_tables, leaves_tables, List.append_assoc]
    exact (ih (hregular.of_get? hget).2.last.2.1).append_left _

theorem Reached.leaves {change : Entries → Entries → Prop} {extra : List (List Text × Expr)}
    (hchange : ∀ {lo entries new}, entries.Regular lo hi → change entries new →
      (entriesLeaves new).Perm (entriesLeaves entries ++ extra))
    (h : Reached change path entries new) (hregular : entries.Regular lo hi) : (entriesLeaves new).Perm
      (entriesLeaves entries ++ extra.map fun leaf => (path.map Key.name ++ leaf.1, leaf.2)) := by
  induction h generalizing lo with
  | here h => exact (List.map_id extra).symm ▸ hchange hregular h
  | @fresh entries sub key path _ _ ih =>
    have h := (ih (@Entries.regular_nil lo hi)).map fun leaf => (key.name :: leaf.1, leaf.2)
    rw [leaves_concat]
    rw [entriesLeaves, List.nil_append, List.map_map] at h
    exact h.append_left _
  | @table _ _ sub _ _ kind hget _ ih =>
    have h := leaves_replace hregular hget (.table kind sub) _ (ih (hregular.of_get? hget).entries)
    rwa [List.map_map] at h
  | @element _ _ sub _ _ heading front hget _ ih =>
    have h := leaves_replace hregular hget (.tables (front ++ [(heading, sub)])) _ (by
      rw [leaves_tables, leaves_tables, List.append_assoc]
      exact (ih (hregular.of_get? hget).2.last.2.1).append_left _)
    rwa [List.map_map] at h

end drafts

namespace Document

theorem leaves_foldlM {draft draft' : Draft} {sts : List Statement}
    (h : sts.foldlM Draft.add? draft = some draft') (hregular : draft.root.Regular 0 (draft.headers + 1)) :
    (entriesLeaves draft'.root).Perm (entriesLeaves draft.root ++
      Line.leaves (draft.current.map Key.name) (sts.map Statement.line)) := by
  induction sts generalizing draft with
  | nil =>
    obtain rfl := Option.some.inj h
    exact (List.append_nil _).symm ▸ .refl _
  | cons st sts ih =>
    rw [List.foldlM_cons] at h
    obtain ⟨next, hnext, hrest⟩ := Option.bind_eq_some_iff.mp h
    have hleaves := ih hrest (add?_regular hnext hregular)
    rcases add?_cases hnext with ⟨array, init, key, around, rfl, hcurrent, -, hreached⟩ |
      ⟨path, e, rfl, hcurrent, -, hreached⟩
    · have h := @Reached.leaves _ _ _ _ _ _ [] (fun hregular hopens => by
        rw [List.append_nil]
        exact hopens.leaves hregular) hreached hregular
      rw [List.map_nil, List.append_nil] at h
      rw [hcurrent] at hleaves
      exact hleaves.trans (h.append_right _)
    · have h := hreached.leaves (fun hregular hassigns => hassigns.leaves hregular) hregular
      rw [hcurrent] at hleaves
      refine hleaves.trans ((h.append_right _).trans ?_)
      rw [List.append_assoc]
      exact .refl _

/-- What the statements assign is what the tree that they build holds. -/
theorem leaves_ofStatements? {sts : List Statement} {root : Entries} (h : ofStatements? sts = some root) :
    (entriesLeaves root).Perm (Line.leaves [] (sts.map Statement.line)) := by
  obtain ⟨draft, hfold, rfl⟩ := Option.map_eq_some_iff.mp h
  exact leaves_foldlM hfold Entries.regular_nil

end Document

theorem exists_of_forall₂ {α β : Type} {R : α → β → Prop} {as : List α} {bs : List β}
    (h : List.Forall₂ R as bs) : ∀ b ∈ bs, ∃ a ∈ as, R a b := by
  induction h with
  | nil => simp
  | @cons a b as bs hab _ ih =>
    rw [List.forall_mem_cons]
    refine ⟨⟨a, List.mem_cons_self, hab⟩, fun c hc => ?_⟩
    obtain ⟨d, hd, hdc⟩ := ih c hc
    exact ⟨d, List.mem_cons_of_mem a hd, hdc⟩

theorem leaves_of_copies {sts sts' : List Statement} (h : List.Forall₂ Statement.Copies sts sts')
    (path : List Text) : List.Forall₂ (fun leaf leaf' => leaf'.1 = leaf.1 ∧ leaf.2.Copies leaf'.2)
      (Line.leaves path (sts.map Statement.line)) (Line.leaves path (sts'.map Statement.line)) := by
  induction h generalizing path with
  | nil => exact .nil
  | @cons st st' _ _ hst _ ih =>
    cases st with
    | header array keys around =>
      cases st' with
      | header array' keys' around' =>
        have hnames : keys'.map Key.name = keys.map Key.name := hst.2
        simp only [List.map_cons, Statement.line, Line.leaves, hnames]
        exact ih _
      | assign => exact hst.elim
    | assign keys e =>
      cases st' with
      | header => exact hst.elim
      | assign keys' e' => exact .cons ⟨congrArg (path ++ ·) hst.1, hst.2⟩ (ih path)

theorem sound_of_mem_leaves {sts : List Statement} (h : ∀ st ∈ sts, st.Kept) (path : List Text) :
    ∀ leaf ∈ Line.leaves path (sts.map Statement.line), leaf.2.Sound Expr.maxDepth 0 := by
  induction sts generalizing path with
  | nil => exact fun leaf hleaf => nomatch hleaf
  | cons st sts ih =>
    obtain ⟨hst, hsts⟩ := List.forall_mem_cons.mp h
    cases st with
    | header array keys around => exact ih hsts _
    | assign keys e =>
      rw [List.map_cons, Statement.line, Line.leaves, List.forall_mem_cons]
      exact ⟨hst.2.2.1, ih hsts path⟩

end DeploymentRecords.Toml
