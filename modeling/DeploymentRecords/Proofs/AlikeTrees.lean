import DeploymentRecords.Proofs.Leaves
import Mathlib.Data.List.Forall2

/-! # Alike trees

Trees that differ in the spelling of values only, by what a tidy text does not show. They are written
alike. -/

namespace DeploymentRecords.Toml

open Text

namespace Expr

def SameAssign (a b : List Key × Expr) : Prop :=
  b.1 = a.1 ∧ ∀ default, Text.Alike (a.2.text default) (b.2.text default)

structure Alike (e new : Expr) : Prop where
  text : ∀ default, Text.Alike (e.text default) (new.text default)
  assigned : ∀ path, List.Forall₂ SameAssign (e.assigned path) (new.assigned path)

variable {e new : Expr} {entries others : List (Key × Expr)}

theorem SameAssign.refl (a : List Key × Expr) : SameAssign a a := ⟨rfl, fun _ => .refl _⟩

theorem Alike.refl (e : Expr) : Alike e e :=
  ⟨fun _ => .refl _, fun _ => List.forall₂_same.mpr fun a _ => .refl a⟩

abbrev SameEntries (entries others : List (Key × Expr)) : Prop :=
  List.Forall₂ (fun p q => q.1 = p.1 ∧ p.2.Alike q.2) entries others

theorem SameEntries.assigned (h : SameEntries entries others) (path : List Key) :
    List.Forall₂ SameAssign (entriesAssigned path entries) (entriesAssigned path others) := by
  induction h with
  | nil => exact .nil
  | @cons p q _ _ hpq _ ih =>
    obtain ⟨key, e⟩ := p
    obtain ⟨key', e'⟩ := q
    obtain ⟨rfl, halike⟩ := hpq
    rw [entriesAssigned, entriesAssigned]
    exact List.rel_append (halike.assigned _) ih

theorem joinPairs_alike {as bs : List (List Key × Expr)} (h : List.Forall₂ SameAssign as bs) :
    Text.Alike (joinPairs (as.map fun (path, e) => (path, e.text)))
      (joinPairs (bs.map fun (path, e) => (path, e.text))) := by
  induction h with
  | nil => exact .refl _
  | @cons a b as bs hab hrest ih =>
    obtain ⟨path, e⟩ := a
    obtain ⟨path', e'⟩ := b
    obtain ⟨rfl, htext⟩ := hab
    cases hrest with
    | nil => exact (Text.Alike.refl (Key.pathText padded path')).append ((htext padded).cons '=')
    | @cons next next' as bs hnext hrest =>
      simp only [List.map_cons, joinPairs] at ih ⊢
      exact ((Text.Alike.refl (Key.pathText padded path')).append ((htext spaced).cons '=')).append
        (ih.cons ',')

theorem alike_table (h : SameEntries entries others) (dotted : Bool) (lead : Text)
    (around : Option Surround) : Alike (.table entries dotted lead around) (.table others dotted lead around) := by
  have htext : ∀ default, Text.Alike ((Expr.table entries dotted lead around).text default)
      ((Expr.table others dotted lead around).text default) := by
    intro default
    rw [text_eq, text_eq]
    refine (Text.Alike.refl _).append (Text.Alike.append (Text.Alike.cons _ ?_) (.refl _))
    rw [pairs_eq, pairs_eq]
    exact (Text.Alike.refl lead).append ((joinPairs_alike (h.assigned [])).append (.refl _))
  refine ⟨htext, fun path => ?_⟩
  cases dotted with
  | true => exact h.assigned path
  | false => exact .cons ⟨rfl, htext⟩ .nil

theorem alike_scalar {v v' : Scalar} {w w' : Text} (h : Text.Alike w w') (around : Option Surround) :
    Alike (.scalar v w around) (.scalar v' w' around) := by
  have htext : ∀ default, Text.Alike ((Expr.scalar v w around).text default)
      ((Expr.scalar v' w' around).text default) := by
    intro default
    rw [text_eq, text_eq]
    exact (Text.Alike.refl _).append (Text.Alike.append h (.refl _))
  exact ⟨htext, fun path => .cons ⟨rfl, htext⟩ .nil⟩

end Expr

namespace Member

open Toml.Expr (SameAssign)

structure Block.Alike (block new : Block) : Prop where
  array : new.array = block.array
  path : new.path = block.path
  heading : new.heading = block.heading
  body : List.Forall₂ SameAssign block.body new.body

structure Alike (member new : Member) : Prop where
  body : List.Forall₂ SameAssign (member.body []) (new.body [])
  blocks : List.Forall₂ Block.Alike (member.blocks []) (new.blocks [])

variable {member new : Member} {entries others : Entries} {e e' : Expr}

theorem Block.Alike.refl (block : Block) : block.Alike block :=
  ⟨rfl, rfl, rfl, List.forall₂_same.mpr fun a _ => .refl a⟩

theorem Alike.refl (member : Member) : member.Alike member :=
  ⟨List.forall₂_same.mpr fun a _ => .refl a, List.forall₂_same.mpr fun block _ => .refl block⟩

theorem alike_expr (h : e.Alike e') : (Member.expr e).Alike (.expr e') := ⟨.cons ⟨rfl, h.text⟩ .nil, .nil⟩

abbrev SameEntries (entries others : Entries) : Prop :=
  List.Forall₂ (fun p q => q.1 = p.1 ∧ p.2.Alike q.2) entries others

theorem SameEntries.body (h : SameEntries entries others) :
    List.Forall₂ SameAssign (entriesBody [] entries) (entriesBody [] others) := by
  rw [entriesBody_eq, entriesBody_eq]
  refine List.rel_flatMap h fun p q hpq => ?_
  rw [List.forall₂_map_left_iff, List.forall₂_map_right_iff]
  refine hpq.2.body.imp fun a b hab => ?_
  exact ⟨by rw [hab.1, hpq.1], hab.2⟩

theorem SameEntries.blocks (h : SameEntries entries others) :
    List.Forall₂ Block.Alike (entriesBlocks [] entries) (entriesBlocks [] others) := by
  rw [entriesBlocks_eq, entriesBlocks_eq]
  refine List.rel_flatMap h fun p q hpq => ?_
  rw [List.forall₂_map_left_iff, List.forall₂_map_right_iff, hpq.1]
  refine hpq.2.blocks.imp fun a b hab => ?_
  exact ⟨hab.array, congrArg (_ ++ ·) hab.path, hab.heading, hab.body⟩

theorem alike_table (kind : TableKind) (h : SameEntries entries others) :
    (Member.table kind entries).Alike (.table kind others) := by
  cases kind with
  | dotted => exact ⟨h.body, h.blocks⟩
  | implied => exact ⟨.nil, .cons ⟨rfl, rfl, rfl, h.body⟩ h.blocks⟩
  | headed heading => exact ⟨.nil, .cons ⟨rfl, rfl, rfl, h.body⟩ h.blocks⟩

end Member

open Member

def Statement.Alike (st new : Statement) : Prop := Text.Alike st.text new.text

theorem assigns_alike {body others : List (List Key × Expr)} (h : List.Forall₂ Expr.SameAssign body others) :
    List.Forall₂ Statement.Alike (body.map fun (path, e) => Statement.assign path e)
      (others.map fun (path, e) => Statement.assign path e) := by
  rw [List.forall₂_map_left_iff, List.forall₂_map_right_iff]
  refine h.imp fun a b hab => ?_
  obtain ⟨path, e⟩ := a
  obtain ⟨path', e'⟩ := b
  obtain ⟨rfl, htext⟩ := hab
  exact ((Text.Alike.refl _).append ((htext _).cons '=')).append (.refl _)

theorem texts_alike {sts others : List Statement} (h : List.Forall₂ Statement.Alike sts others) :
    Text.Alike (sts.flatMap Statement.text) (others.flatMap Statement.text) := by
  induction h with
  | nil => exact .refl _
  | cons hst _ ih => exact Text.Alike.append hst ih

namespace Document

theorem positioned_alike {blocks others : List Block} (h : List.Forall₂ Block.Alike blocks others) (last : Nat) :
    List.Forall₂ (fun u v => v.1 = u.1 ∧ u.2.Alike v.2) (positioned last blocks) (positioned last others) := by
  induction h generalizing last with
  | nil => exact .nil
  | cons hblock _ ih =>
    rw [positioned, positioned, hblock.heading]
    exact .cons ⟨rfl, hblock⟩ (ih _)

theorem blockStatements_alike (first : Bool) {blocks others : List Block}
    (h : List.Forall₂ Block.Alike blocks others) :
    List.Forall₂ Statement.Alike (blockStatements first blocks) (blockStatements first others) := by
  induction h generalizing first with
  | nil => exact .nil
  | @cons block other _ _ hblock _ ih =>
    have hwhole : ∀ array path around, List.Forall₂ Statement.Alike
        (.header array path around :: block.body.map fun (path, e) => Statement.assign path e)
        (.header array path around :: other.body.map fun (path, e) => Statement.assign path e) :=
      fun array path around => .cons (Text.Alike.refl _) (assigns_alike hblock.body)
    rw [blockStatements, blockStatements, hblock.array, hblock.path, hblock.heading]
    cases block.heading with
    | some heading => exact List.rel_append (hwhole ..) (ih false)
    | none =>
      dsimp only
      by_cases hbody : block.body = []
      · have hother : other.body = [] := List.forall₂_nil_left_iff.mp (hbody ▸ hblock.body)
        rw [if_pos hbody, if_pos hother]
        exact ih first
      · have hother : other.body ≠ [] := fun hnil =>
          hbody (List.forall₂_nil_right_iff.mp (hnil ▸ hblock.body))
        rw [if_neg hbody, if_neg hother]
        exact List.rel_append (hwhole ..) (ih false)

/-- Documents whose trees are alike are written alike. -/
theorem statements_alike {doc new : Document}
    (h : (Member.table .dotted doc.root).Alike (.table .dotted new.root)) :
    List.Forall₂ Statement.Alike doc.statements new.statements := by
  have hordered : List.Forall₂ Block.Alike (ordered doc.root) (ordered new.root) := by
    rw [ordered, ordered, List.forall₂_map_left_iff, List.forall₂_map_right_iff]
    exact (Sorting.byPosition_forall₂ (positioned_alike h.blocks 0)).imp fun _ _ huv => huv.2
  have hbody : List.Forall₂ Expr.SameAssign (entriesBody [] doc.root) (entriesBody [] new.root) := h.body
  have hempty : (entriesBody [] new.root).isEmpty = (entriesBody [] doc.root).isEmpty := by
    rw [Bool.eq_iff_iff, List.isEmpty_iff_length_eq_zero, List.isEmpty_iff_length_eq_zero,
      hbody.length_eq]
  rw [statements, statements, hempty]
  exact List.rel_append (assigns_alike hbody) (blockStatements_alike _ hordered)

/-- Documents whose trees are alike have one tidy text. -/
theorem tidy_alike {doc new : Document} (h : (Member.table .dotted doc.root).Alike (.table .dotted new.root))
    (htrail : new.trail = doc.trail) : tidy new.text = tidy doc.text := by
  have hsts := statements_alike h
  have htexts := texts_alike hsts
  rw [text, text, tidy_eq, tidy_eq, htrail]
  by_cases hnil : doc.trail = []
  · rw [hnil, List.append_nil, List.append_nil]
    by_cases hdoc : doc.statements = []
    · rw [hdoc, List.forall₂_nil_left_iff] at hsts
      rw [hdoc, hsts]
    · have hnew : new.statements ≠ [] := fun e => hdoc (List.forall₂_nil_right_iff.mp (e ▸ hsts))
      rw [Statement.closed_flatMap_text hdoc, Statement.closed_flatMap_text hnew]
      simpa using (htexts []).symm
  · rw [closed_append hnil, closed_append hnil]
    exact (htexts _).symm

end Document

end DeploymentRecords.Toml
