import DeploymentRecords.Proofs.AlikeTrees
import DeploymentRecords.Proofs.Sections
import DeploymentRecords.Proofs.UniformText
import Mathlib.Data.List.Induction

/-! # Repeated edits

An edit leaves the strings that it writes, spelt as it spells them. Making it once more, after the
document was read from its tidy text, puts the same strings in their places, so nothing is written but
the document that was read. This is the text that was read, if keys are spelt uniformly. -/

namespace DeploymentRecords.Toml

open Text

variable {fields : List (Text × Text)} {path : List Text}

theorem Value.lookup_reverse_concat (fields : List (Text × Text)) (name s x : Text) :
    (fields ++ [(name, s)]).reverse.lookup x = if x = name then some s else fields.reverse.lookup x := by
  rw [List.reverse_append, List.reverse_singleton, List.singleton_append, Value.lookup_cons]

/-- What is under a name once strings are put there by `write`, the last of them. -/
def overwritten {α : Type} (write : Text → α → α) (fields : List (Text × Text)) (name : Text) (old : α) : α :=
  match fields.reverse.lookup name with
  | some s => write s old
  | none => old

section setAll

variable {α : Type} {set : List (Key × α) → Text → Text → List (Key × α)} {entries : List (Key × α)}

/-- Every name that was written has its last string, if that is what one write makes sure of. -/
theorem setAll_strings (Good : Text → α → Prop) (hset : ∀ {entries name s p}, p ∈ set entries name s →
      (p.1.name = name ∧ Good s p.2) ∨ (p.1.name ≠ name ∧ p ∈ entries))
    (fields : List (Text × Text)) (entries : List (Key × α)) :
    ∀ p ∈ fields.foldl (fun entries (name, s) => set entries name s) entries,
      ∀ s, fields.reverse.lookup p.1.name = some s → Good s p.2 := by
  induction fields using List.reverseRecOn with
  | nil => exact fun p _ s hs => nomatch hs
  | append_singleton fields field ih =>
    rw [List.foldl_concat]
    intro p hp s hs
    rw [Value.lookup_reverse_concat] at hs
    rcases hset hp with ⟨hname, hgood⟩ | ⟨hname, hold⟩
    · rw [if_pos hname] at hs
      exact Option.some.inj hs ▸ hgood
    · rw [if_neg hname] at hs
      exact ih p hold s hs

theorem names_overwritten (write : Text → α → α) (fields : List (Text × Text)) (entries : List (Key × α)) :
    names (entries.map fun p => (p.1, overwritten write fields p.1.name p.2)) = names entries := by
  simp [names]

/-- Strings under names that are there change these entries and no others. -/
theorem setAll_eq (write : Text → α → α) (hwrite : ∀ s t a, write s (write t a) = write s a)
    (hset : ∀ {entries name s}, (names entries).Nodup → name ∈ names entries →
      set entries name s = entries.map fun p => (p.1, if p.1.name = name then write s p.2 else p.2))
    (hnodup : (names entries).Nodup) (h : ∀ field ∈ fields, field.1 ∈ names entries) :
    fields.foldl (fun entries (name, s) => set entries name s) entries =
      entries.map fun p => (p.1, overwritten write fields p.1.name p.2) := by
  induction fields using List.reverseRecOn with
  | nil => exact (List.map_id entries).symm
  | append_singleton fields field ih =>
    obtain ⟨name, s⟩ := field
    obtain ⟨hfields, hfield⟩ := List.forall_mem_append.mp h
    have hnames := names_overwritten write fields entries
    rw [List.foldl_concat, ih hfields]
    show set _ name s = _
    rw [hset (hnames ▸ hnodup) (hnames ▸ hfield (name, s) List.mem_cons_self), List.map_map]
    refine List.map_congr_left fun p _ => ?_
    dsimp only [Function.comp_apply]
    rw [overwritten, overwritten, Value.lookup_reverse_concat]
    by_cases hp : p.1.name = name
    · simp only [hp, if_true]
      split
      · rw [hwrite]
      · rfl
    · simp only [hp, if_false]

/-- Strings that are put in the places of related entries. -/
theorem forall₂_overwritten {R : α → α → Prop} (hrefl : ∀ a, R a a) {write : Text → α → α}
    (h : ∀ p ∈ entries, ∀ s, fields.reverse.lookup p.1.name = some s → R p.2 (write s p.2)) :
    List.Forall₂ (fun p q => q.1 = p.1 ∧ R p.2 q.2) entries
      (entries.map fun p => (p.1, overwritten write fields p.1.name p.2)) := by
  rw [List.forall₂_map_right_iff, List.forall₂_same]
  refine fun p hp => ⟨rfl, ?_⟩
  unfold overwritten
  split
  · next s hs => exact h p hp s hs
  · exact hrefl p.2

theorem forall₂_replaced {R : α → α → Prop} (hrefl : ∀ a, R a a) {key : Key} {old new : α}
    (hnodup : (names entries).Nodup) (hmem : (key, old) ∈ entries) (hnew : R old new) :
    List.Forall₂ (fun p q => q.1 = p.1 ∧ R p.2 q.2) entries
      (entries.map fun (k, e) => if k.name = key.name then (k, new) else (k, e)) := by
  rw [List.forall₂_map_right_iff, List.forall₂_same]
  intro p hp
  by_cases hname : p.1.name = key.name
  · obtain rfl := eq_of_name_eq hnodup hp hmem hname
    simp only [if_true]
    exact ⟨trivial, hnew⟩
  · simp only [hname, if_false]
    exact ⟨trivial, hrefl p.2⟩

end setAll

namespace Expr

variable {entries others : List (Key × Expr)} {e e' new : Expr} {depth budget : Nat}

theorem mem_names_set (entries : List (Key × Expr)) (name s x : Text) :
    x ∈ names (set entries name s) ↔ x ∈ names entries ∨ x = name := by
  unfold set
  split
  · next hany =>
    rw [names_map fun p => by dsimp only; split <;> rfl]
    exact (or_iff_left_of_imp fun hx => hx ▸ any_name.mp hany).symm
  · simp [names, Key.new]

theorem mem_set {name s : Text} {p : Key × Expr} (h : p ∈ set entries name s) :
    (p.1.name = name ∧ ∃ around, p.2 = string s around) ∨ (p.1.name ≠ name ∧ p ∈ entries) := by
  unfold set at h
  split at h
  · obtain ⟨⟨key, old⟩, hold, rfl⟩ := List.mem_map.mp h
    by_cases hname : key.name = name
    · simp only [hname, if_true]
      exact Or.inl ⟨trivial, _, rfl⟩
    · simp only [hname, if_false]
      exact Or.inr ⟨hname, hold⟩
  · next hany =>
    rcases List.mem_append.mp h with hp | hp
    · exact Or.inr ⟨fun hname => hany (any_name.mpr (hname ▸ mem_names.mpr ⟨p, hp, rfl⟩)), hp⟩
    · obtain rfl := List.mem_singleton.mp hp
      exact Or.inl ⟨rfl, none, rfl⟩

theorem set_eq {name : Text} (s : Text) (h : name ∈ names entries) : set entries name s =
    entries.map fun p => (p.1, if p.1.name = name then string s p.2.around else p.2) := by
  unfold set
  rw [if_pos (any_name.mpr h)]
  refine List.map_congr_left fun p _ => ?_
  dsimp only
  split <;> rfl

theorem mem_names_setAll (fields : List (Text × Text)) (entries : List (Key × Expr)) : ∀ field ∈ fields,
    field.1 ∈ names (fields.foldl (fun entries (name, s) => set entries name s) entries) := by
  induction fields using List.reverseRecOn with
  | nil => simp
  | append_singleton fields field ih =>
    rw [List.foldl_concat, List.forall_mem_append, List.forall_mem_singleton]
    exact ⟨fun other hother => (mem_names_set _ _ _ _).mpr (Or.inl (ih other hother)),
      (mem_names_set _ _ _ _).mpr (Or.inr rfl)⟩

def Holds (fields : List (Text × Text)) : List Text → Expr → Prop
  | [], .table entries _ _ _ => (∀ field ∈ fields, field.1 ∈ names entries) ∧
      ∀ p ∈ entries, ∀ s, fields.reverse.lookup p.1.name = some s → ∃ around, p.2 = string s around
  | name :: path, .table entries _ _ _ => ∀ p ∈ entries, p.1.name = name → p.2.Holds fields path
  | _, _ => True

theorem update?_holds (h : e.update? fields path = some new) : new.Holds fields path := by
  induction path generalizing e new with
  | nil =>
    cases e with
    | scalar => cases h
    | array => cases h
    | table entries dotted lead around =>
      cases h
      exact ⟨mem_names_setAll fields entries,
        setAll_strings (fun s new => ∃ around, new = string s around) mem_set fields entries⟩
  | cons name path ih =>
    cases e with
    | scalar => cases h
    | array => cases h
    | table entries dotted lead around =>
      rw [update?] at h
      split at h
      · cases h
      · obtain ⟨sub, hsub, rfl⟩ := Option.map_eq_some_iff.mp h
        intro p hp hname
        obtain ⟨⟨key, old⟩, -, rfl⟩ := List.mem_map.mp hp
        by_cases hkey : key.name = name
        · simp only [hkey, if_true]
          exact ih hsub
        · simp only [hkey, if_false] at hname

theorem entriesTwin_iff : EntriesTwin entries others ↔
    List.Forall₂ (fun p q => q.1.name = p.1.name ∧ p.2.Twin q.2) entries others := by
  induction entries generalizing others with
  | nil =>
    cases others with
    | nil => exact iff_of_true trivial .nil
    | cons q others => exact iff_of_false id nofun
  | cons p entries ih =>
    cases others with
    | nil => exact iff_of_false id nofun
    | cons q others =>
      rw [List.forall₂_cons, ← ih, and_assoc]
      rfl

theorem Twin.alike_string {s : Text} {around : Option Surround} (h : (string s around).Twin e) :
    e.Alike (string s e.around) := by
  cases e with
  | scalar v w around' =>
    obtain rfl : w = strip (quote s) := h
    exact alike_scalar (@Sound.ends 0 0 _ (sound_string s none)).alike.symm around'
  | array => exact h.elim
  | table => exact h.elim

theorem Sound.nodup_names {dotted : Bool} {lead : Text} {around : Option Surround}
    (h : (Expr.table entries dotted lead around).Sound depth budget) :
    (names entries).Nodup ∧ ∃ d b, EntriesSound d b entries := by
  cases dotted with
  | false =>
    rw [Sound] at h
    obtain ⟨d, -, -, hnodup, hsound⟩ := h
    exact ⟨hnodup, d, _, hsound⟩
  | true =>
    rw [Sound] at h
    obtain ⟨b, -, -, hnodup, hsound⟩ := h
    exact ⟨hnodup, _, b, hsound⟩

/-- Strings that entries have are written into their twins as they are spelt there. -/
theorem sameEntries_setAll (htwins : EntriesTwin entries others) (hnodup : (names others).Nodup)
    (hnames : ∀ field ∈ fields, field.1 ∈ names entries)
    (hstrings : ∀ p ∈ entries, ∀ s, fields.reverse.lookup p.1.name = some s →
      ∃ around, p.2 = string s around) :
    SameEntries others (fields.foldl (fun entries (name, s) => set entries name s) others) := by
  have htwins := entriesTwin_iff.mp htwins
  have hsame : names others = names entries := by
    rw [names, names, ← List.forall₂_eq_eq_eq, List.forall₂_map_left_iff, List.forall₂_map_right_iff]
    exact (htwins.imp fun _ _ hpq => hpq.1).flip
  rw [setAll_eq (fun s old => string s old.around) (fun _ _ _ => rfl) (fun _ h => set_eq _ h) hnodup
    (hsame ▸ hnames)]
  refine forall₂_overwritten Alike.refl fun q hq s hs => ?_
  obtain ⟨p, hp, hname, htwin⟩ := exists_of_forall₂ htwins q hq
  obtain ⟨around, hstring⟩ := hstrings p hp s (hname ▸ hs)
  rw [hstring] at htwin
  exact htwin.alike_string

/-- Strings that an expression holds are written into its twin as they are spelt there. -/
theorem Twin.update?_alike (htwin : e.Twin e') (hholds : e.Holds fields path)
    (hsound : e'.Sound depth budget) (h : e'.update? fields path = some new) : e'.Alike new := by
  induction path generalizing e e' new depth budget with
  | nil =>
    match e', e with
    | .scalar .., _ => cases h
    | .array .., _ => cases h
    | .table .., .scalar .. => exact htwin.elim
    | .table .., .array .. => exact htwin.elim
    | .table others dotted lead around, .table entries _ _ _ =>
      cases h
      exact alike_table (sameEntries_setAll htwin hsound.nodup_names.1 hholds.1 hholds.2) dotted lead around
  | cons name path ih =>
    match e', e with
    | .scalar .., _ => cases h
    | .array .., _ => cases h
    | .table .., .scalar .. => exact htwin.elim
    | .table .., .array .. => exact htwin.elim
    | .table others dotted lead around, .table entries _ _ _ =>
      rw [update?] at h
      split at h
      · cases h
      · next key old hfind =>
        obtain ⟨sub, hsub, rfl⟩ := Option.map_eq_some_iff.mp h
        obtain rfl : key.name = name := by simpa using List.find?_some hfind
        have hmem := List.mem_of_find?_eq_some hfind
        obtain ⟨p, hp, hpname, htwin⟩ := exists_of_forall₂ (entriesTwin_iff.mp htwin) _ hmem
        obtain ⟨hnodup, d, b, hsound⟩ := hsound.nodup_names
        have halike := ih htwin (hholds p hp hpname.symm) (entriesSound_iff.mp hsound _ hmem).2.2.2 hsub
        exact alike_table (forall₂_replaced Alike.refl hnodup hmem halike) dotted lead around

end Expr

namespace Entries

variable {entries : Entries}

theorem mem_set {name s : Text} {p : Key × Member} (h : p ∈ set entries name s) :
    (p.1.name = name ∧ ∃ around, p.2 = .expr (.string s around)) ∨ (p.1.name ≠ name ∧ p ∈ entries) := by
  unfold set at h
  split at h
  · next old hget =>
    rcases mem_replace h with ⟨hold, hname⟩ | ⟨hnew, hname, -⟩
    · exact Or.inr ⟨hname, hold⟩
    · exact Or.inl ⟨hname, _, hnew⟩
  · next hget =>
    rcases List.mem_append.mp h with hp | hp
    · exact Or.inr ⟨fun hname => get?_eq_none_iff.mp hget (hname ▸ mem_names.mpr ⟨p, hp, rfl⟩), hp⟩
    · obtain rfl := List.mem_singleton.mp hp
      exact Or.inl ⟨rfl, none, rfl⟩

theorem set_eq {name : Text} (s : Text) (hnodup : (names entries).Nodup) (h : name ∈ names entries) :
    set entries name s = entries.map fun p =>
      (p.1, if p.1.name = name then .expr (.string s p.2.around) else p.2) := by
  obtain ⟨q, hq, rfl⟩ := mem_names.mp h
  unfold set
  rw [get?_of_mem hnodup hq]
  refine List.map_congr_left fun p hp => ?_
  dsimp only
  split
  · next hname => rw [eq_of_name_eq hnodup hp hq hname]
  · rfl

end Entries

namespace Member

variable {member new : Member} {lo hi : Nat}

def HoldsAt (fields : List (Text × Text)) : List Text → List Text → Expr → Prop
  | path, [], e => e.Holds fields path
  | [], name :: place, e =>
    ∀ s, fields.reverse.lookup name = some s → place = [] ∧ ∃ around, e = .string s around
  | name :: path, name' :: place, e => name' = name → HoldsAt fields path place e

theorem update?_holds (h : member.update? fields path = some new) :
    ∀ leaf ∈ new.leaves, HoldsAt fields path leaf.1 leaf.2 := by
  induction path generalizing member new with
  | nil =>
    cases member with
    | expr e =>
      obtain ⟨e', he, rfl⟩ := Option.map_eq_some_iff.mp h
      exact List.forall_mem_singleton.mpr (Expr.update?_holds he)
    | table kind entries =>
      cases h
      intro leaf hleaf
      obtain ⟨p, hp, below, hbelow, rfl⟩ := mem_entriesLeaves.mp hleaf
      intro s hs
      obtain ⟨around, hstring⟩ := setAll_strings
        (fun s new => ∃ around, new = .expr (.string s around)) Entries.mem_set fields entries p hp s hs
      rw [hstring] at hbelow
      obtain rfl := List.mem_singleton.mp hbelow
      exact ⟨rfl, around, rfl⟩
    | tables elements => cases h
  | cons name path ih =>
    cases member with
    | expr e =>
      obtain ⟨e', he, rfl⟩ := Option.map_eq_some_iff.mp h
      exact List.forall_mem_singleton.mpr (Expr.update?_holds he)
    | table kind entries =>
      rw [update?] at h
      split at h
      · cases h
      · next old hget =>
        obtain ⟨sub, hsub, rfl⟩ := Option.map_eq_some_iff.mp h
        intro leaf hleaf
        obtain ⟨p, hp, below, hbelow, rfl⟩ := mem_entriesLeaves.mp hleaf
        intro hname
        rcases Entries.mem_replace hp with ⟨-, hother⟩ | ⟨hp, -⟩
        · exact absurd hname hother
        · exact ih hsub below (hp ▸ hbelow)
    | tables elements => cases h

/-- What is left of a tree after it was read from its tidy text: every leaf copies one of the tree,
which holds the strings at the end of the path. -/
structure Reprinted (fields : List (Text × Text)) (path : List Text) (member : Member) : Prop where
  leaves : ∀ leaf ∈ member.leaves, leaf.2.Sound Expr.maxDepth 0 ∧
    ∃ e : Expr, HoldsAt fields path leaf.1 e ∧ e.Copies leaf.2
  values : ∀ field ∈ fields, ∃ v, (member.valueBy Expr.value).at? (path ++ [field.1]) = some (.scalar v)

theorem Reprinted.of_get? {kind : TableKind} {entries : Entries} {name : Text}
    (h : Reprinted fields (name :: path) (.table kind entries)) (hget : entries.get? name = some member) :
    Reprinted fields path member := by
  obtain ⟨hleaves, hvalues⟩ := h
  refine ⟨fun leaf hleaf => ?_, fun field hfield => ?_⟩
  · obtain ⟨key, hmem, rfl⟩ := Entries.exists_mem_of_get? hget
    obtain ⟨hsound, e, hholds, hcopies⟩ := hleaves (key.name :: leaf.1, leaf.2)
      (mem_entriesLeaves.mpr ⟨_, hmem, leaf, hleaf, rfl⟩)
    exact ⟨hsound, e, hholds rfl, hcopies⟩
  · obtain ⟨v, hv⟩ := hvalues field hfield
    rw [List.cons_append, Value.at?, valueBy, Value.field?_table, lookup_entryValuesBy, hget] at hv
    exact ⟨v, hv⟩

theorem Reprinted.expr_alike {e new : Expr} (h : Reprinted fields path (.expr e))
    (hupdate : e.update? fields path = some new) : (Member.expr e).Alike (.expr new) := by
  obtain ⟨hsound, e', hholds, hcopies⟩ := h.leaves ([], e) List.mem_cons_self
  have hholds : e'.Holds fields path := by
    cases path <;> exact hholds
  exact alike_expr (hcopies.twin.update?_alike hholds hsound hupdate)

theorem Reprinted.get?_expr {kind : TableKind} {entries : Entries} (h : Reprinted fields [] (.table kind entries))
    {field : Text × Text} (hfield : field ∈ fields) : ∃ e, entries.get? field.1 = some (.expr e) := by
  obtain ⟨v, hv⟩ := h.values field hfield
  rw [List.nil_append, Value.at?, valueBy, Value.field?_table, lookup_entryValuesBy] at hv
  cases hget : entries.get? field.1 with
  | none => rw [hget] at hv; cases hv
  | some member =>
    cases member with
    | expr e => exact ⟨e, rfl⟩
    | table => rw [hget] at hv; cases hv
    | tables => rw [hget] at hv; cases hv

theorem Reprinted.sameEntries_setAll {kind : TableKind} {entries : Entries}
    (h : Reprinted fields [] (.table kind entries)) (hnodup : (names entries).Nodup) :
    SameEntries entries (fields.foldl (fun entries (name, s) => Entries.set entries name s) entries) := by
  have hnames : ∀ field ∈ fields, field.1 ∈ names entries := by
    intro field hfield
    obtain ⟨e, hget⟩ := h.get?_expr hfield
    obtain ⟨key, hmem, hname⟩ := Entries.exists_mem_of_get? hget
    exact mem_names.mpr ⟨_, hmem, hname⟩
  rw [setAll_eq (fun s old => .expr (.string s old.around)) (fun _ _ _ => rfl) (Entries.set_eq _)
    hnodup hnames]
  refine forall₂_overwritten Alike.refl fun p hp s hs => ?_
  obtain ⟨e, hget⟩ := h.get?_expr (List.mem_reverse.mp (Value.mem_of_lookup hs))
  obtain ⟨key, member⟩ := p
  obtain rfl := Option.some.inj ((Entries.get?_of_mem hnodup hp).symm.trans hget)
  obtain ⟨-, e', hholds, hcopies⟩ := h.leaves ([key.name], e)
    (mem_entriesLeaves.mpr ⟨_, hp, ([], e), List.mem_cons_self, rfl⟩)
  obtain ⟨-, around, rfl⟩ := hholds s hs
  exact alike_expr hcopies.twin.alike_string

/-- The strings are written into a tree that was reprinted as they are spelt there. -/
theorem Reprinted.update?_alike (h : Reprinted fields path member) (hregular : member.Regular lo hi)
    (hupdate : member.update? fields path = some new) : member.Alike new := by
  induction path generalizing member new with
  | nil =>
    cases member with
    | expr e =>
      obtain ⟨e', he, rfl⟩ := Option.map_eq_some_iff.mp hupdate
      exact h.expr_alike he
    | table kind entries =>
      cases hupdate
      exact alike_table kind (h.sameEntries_setAll hregular.entries.nodup)
    | tables elements => cases hupdate
  | cons name path ih =>
    cases member with
    | expr e =>
      obtain ⟨e', he, rfl⟩ := Option.map_eq_some_iff.mp hupdate
      exact h.expr_alike he
    | table kind entries =>
      rw [update?] at hupdate
      split at hupdate
      · cases hupdate
      · next old hget =>
        obtain ⟨sub, hsub, rfl⟩ := Option.map_eq_some_iff.mp hupdate
        have hentries := hregular.entries
        have halike := ih (h.of_get? hget) (hentries.of_get? hget) hsub
        obtain ⟨key, hmem, rfl⟩ := Entries.exists_mem_of_get? hget
        exact alike_table kind (forall₂_replaced Alike.refl hentries.nodup hmem halike)
    | tables elements => cases hupdate

end Member

namespace Value

theorem Overwritten.at? {old new : Value} (h : Overwritten fields path old new) {field : Text × Text}
    (hfield : field ∈ fields) : ∃ s, new.at? (path ++ [field.1]) = some (written s) := by
  induction path generalizing old new with
  | nil =>
    obtain ⟨s, hs⟩ : ∃ s, fields.reverse.lookup field.1 = some s := by
      refine Option.ne_none_iff_exists'.mp fun hnone => ?_
      have := List.lookup_eq_none_iff.mp hnone field (List.mem_reverse.mpr hfield)
      simp at this
    exact ⟨s, by rw [List.nil_append, Value.at?, h.2.2, hs]; rfl⟩
  | cons name path ih =>
    obtain ⟨-, -, -, v, w, -, hw, hrest⟩ := h
    obtain ⟨s, hs⟩ := ih hrest
    exact ⟨s, by rw [List.cons_append, Value.at?, hw, Option.bind_some, hs]⟩

theorem at?_canonical (path : List Text) (v : Value) :
    v.canonical.at? path = (v.at? path).map canonical := by
  induction path generalizing v with
  | nil => rfl
  | cons name path ih =>
    rw [Value.at?, Value.at?, field?_canonical]
    cases v.field? name with
    | none => rfl
    | some w => exact ih w

end Value

/-- The tidy text of the document that is read from a text is this text. -/
def Reprints (s : Text) : Prop := ∃ doc, Document.read? s = some doc ∧ tidy doc.text = s

namespace Document

variable {doc new : Document} {table : Text}

theorem update?_root (h : doc.update? table path fields = some new) (kind : TableKind) :
    (Member.table kind doc.root).update? fields (table :: path) = some (.table kind new.root) ∧
      doc.root ≠ [] ∧ new.trail = doc.trail := by
  unfold update? at h
  rw [Member.update?]
  split at h
  · cases h
  · next member hget =>
    obtain ⟨sub, hsub, rfl⟩ := Option.map_eq_some_iff.mp h
    refine ⟨by simp only [hsub, Option.map_some], ?_, rfl⟩
    rintro hnil
    rw [hnil] at hget
    cases hget

/-- The leaves of the document that is read from the tidy text copy those of the document. -/
theorem leaves_again {again : Document} (hdoc : doc.Sound) (hread : read? (tidy doc.text) = some again) :
    ∀ leaf ∈ Member.entriesLeaves again.root, leaf.2.Sound Expr.maxDepth 0 ∧
      ∃ leaf' ∈ Member.entriesLeaves doc.root, leaf.1 = leaf'.1 ∧ leaf'.2.Copies leaf.2 := by
  obtain ⟨sts, trail, hsts, hcopies, -⟩ :=
    Statement.readAll?_tidy (statements_printable hdoc.entries) hdoc.trail
  have hsts : Statement.readAll? (tidy doc.text) = some (sts, trail) := hsts
  rw [read?_eq hsts] at hread
  obtain ⟨root, hroot, rfl⟩ := Option.map_eq_some_iff.mp hread
  intro leaf hleaf
  have hline := (leaves_ofStatements? hroot).mem_iff.mp hleaf
  obtain ⟨leaf', hleaf', hcopy⟩ := exists_of_forall₂ (leaves_of_copies hcopies []) leaf hline
  exact ⟨sound_of_mem_leaves (Statement.kept_of_readAll? hsts).1 [] leaf hline, leaf',
    (leaves_statements doc).mem_iff.mp hleaf', hcopy⟩

/-- A document whose tidy text is uniform is written as that text once it is read from it. -/
theorem reprints_of_uniform (hdoc : doc.Sound) (h : Uniform (tidy doc.text)) : Reprints (tidy doc.text) := by
  obtain ⟨sts, trail, hread, -, htext⟩ :=
    Statement.readAll?_tidy (statements_printable hdoc.entries) hdoc.trail
  have hread : Statement.readAll? (tidy doc.text) = some (sts, trail) := hread
  have htext : tidy doc.text = sts.flatMap Statement.text ++ trail := htext
  rw [Uniform, hread, Option.any_some] at h
  obtain ⟨root, hroot, hlines⟩ := ofStatements?_uniform h
  have hsame := congrArg (List.flatMap Line.text) (hlines trail)
  rw [List.flatMap_map, List.flatMap_map] at hsame
  simp only [Statement.text_line] at hsame
  have hagain : (Document.mk root trail).text = tidy doc.text := by
    rw [htext, ← hsame]
    rfl
  refine ⟨⟨root, trail⟩, by rw [read?_eq hread, hroot]; rfl, ?_⟩
  rw [hagain, tidy_tidy]

theorem canonical_of_read? {again : Document} (hdoc : doc.Sound)
    (hread : read? (tidy doc.text) = some again) :
    (Value.table again.entries).canonical = doc.settledValue.canonical := by
  rcases reread hdoc with ⟨-, again', hread', hcanonical⟩ | ⟨-, hnone⟩
  · obtain rfl := Option.some.inj (hread.symm.trans hread')
    exact hcanonical
  · exact absurd (hread.symm.trans hnone) (Option.some_ne_none again)

theorem valueBy_root (doc : Document) (kind : TableKind) :
    (Member.table kind doc.root).valueBy Expr.value = .table doc.entries := by
  rw [entries, Member.entryValues_eq]
  rfl

/-- A table that strings were written into is there when the tidy text is read. -/
theorem exists_update?_again {again : Document} (hnew : new.Sound)
    (h : doc.update? table path fields = some new) (hread : read? (tidy new.text) = some again) :
    ∃ third, again.update? table path fields = some third := by
  rw [← Option.isSome_iff_exists, update?_isSome_iff Expr.tableLike_value]
  have hold := (update?_isSome_iff Expr.tableLike_settledValue).mp (Option.isSome_of_eq_some h)
  have htable := ((update?_overwritten h).hasTable_iff (Nat.le_refl _)).mpr hold
  rw [← Value.hasTable_canonical, ← canonical_of_read? hnew hread, Value.hasTable_canonical,
    ← valueBy_root again .dotted] at htable
  exact htable

/-- What was written is a string in the document that is read from the tidy text. -/
theorem exists_scalar_again {again : Document} (hnew : new.Sound)
    (h : doc.update? table path fields = some new) (hread : read? (tidy new.text) = some again)
    {field : Text × Text} (hfield : field ∈ fields) :
    ∃ v, (Value.table again.entries).at? (table :: path ++ [field.1]) = some (.scalar v) := by
  obtain ⟨s, hs⟩ := (update?_overwritten h).at? hfield
  have hfound : (Value.table again.entries).canonical.at? (table :: path ++ [field.1]) =
      some (Value.written s) := by
    rw [canonical_of_read? hnew hread, Value.at?_canonical, hs]
    rfl
  rw [Value.at?_canonical] at hfound
  obtain ⟨v, hv, hscalar⟩ := Option.map_eq_some_iff.mp hfound
  cases v with
  | scalar v => exact ⟨v, hv⟩
  | array vs => cases hscalar
  | table entries => cases hscalar

/-- Strings that were written are written again into the document that is read from the tidy text,
which is written as if it had only been read. -/
theorem update?_again {again third : Document} (hnew : new.Sound)
    (h : doc.update? table path fields = some new) (hread : read? (tidy new.text) = some again)
    (hthird : again.update? table path fields = some third) : tidy third.text = tidy again.text := by
  obtain ⟨hroot, hne, htrail⟩ := update?_root hthird .dotted
  have hholds := Member.update?_holds (update?_root h .dotted).1
  have hreprinted : Member.Reprinted fields (table :: path) (.table .dotted again.root) := by
    refine ⟨fun leaf hleaf => ?_, fun field hfield => ?_⟩
    · obtain ⟨hsound, leaf', hleaf', hname, hcopies⟩ := leaves_again hnew hread leaf hleaf
      exact ⟨hsound, leaf'.2, hname ▸ hholds leaf' hleaf', hcopies⟩
    · rw [valueBy_root]
      exact exists_scalar_again hnew h hread hfield
  obtain ⟨hi, hregular⟩ := (sound_of_read? hread).regular
  exact tidy_alike (hreprinted.update?_alike (Member.regular_table hregular hne (by simp)) hroot) htrail

end Document

end DeploymentRecords.Toml
