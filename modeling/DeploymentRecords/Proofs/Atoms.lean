import DeploymentRecords.Proofs.Boxes
import DeploymentRecords.Proofs.SoundTree
import DeploymentRecords.Proofs.Untouched

/-! # Atoms

The scalars of a document with the names that lead to them. Stripping the ends of lines changes
the meaning of an entry just if it changes the meaning of an atom below it. -/

namespace DeploymentRecords.Toml

structure Atom where
  path : List Text
  value : Scalar
  spelling : Text
  deriving DecidableEq, Repr

namespace Atom

/-- The spelling means the same with the ends of its lines stripped. -/
def Steady (atom : Atom) : Prop := atom.value.settled atom.spelling = atom.value

instance (atom : Atom) : Decidable atom.Steady :=
  inferInstanceAs (Decidable (atom.value.settled atom.spelling = atom.value))

/-- The names of the atom lead through the path and then to one of `names`. -/
def Among (names path : List Text) (atom : Atom) : Prop :=
  ∃ name ∈ names, path ++ [name] <+: atom.path

def below (name : Text) (atom : Atom) : Atom := { atom with path := name :: atom.path }

instance (names path : List Text) (atom : Atom) : Decidable (atom.Among names path) :=
  inferInstanceAs (Decidable (∃ name ∈ names, path ++ [name] <+: atom.path))

@[simp] theorem steady_below {name : Text} {atom : Atom} : (atom.below name).Steady ↔ atom.Steady :=
  Iff.rfl

theorem among_nil_below {names : List Text} {name : Text} {atom : Atom} :
    (atom.below name).Among names [] ↔ name ∈ names := by
  simp [Among, below, List.cons_prefix_cons]

theorem among_cons_below {names path : List Text} {key name : Text} {atom : Atom} :
    (atom.below name).Among names (key :: path) ↔ name = key ∧ atom.Among names path := by
  simp only [Among, below, List.cons_append, List.cons_prefix_cons]
  constructor
  · rintro ⟨x, hx, rfl, hprefix⟩
    exact ⟨rfl, x, hx, hprefix⟩
  · rintro ⟨rfl, x, hx, hprefix⟩
    exact ⟨x, hx, rfl, hprefix⟩

section entries

variable {α : Type} {f g : α → Value} {atoms : α → List Atom} {entries : List (Key × α)}
  {names path : List Text}

theorem sameBut_nil_iff (hnodup : (Toml.names entries).Nodup)
    (hsteady : ∀ p ∈ entries, (∀ atom ∈ atoms p.2, atom.Steady) ↔
      (f p.2).canonical = (g p.2).canonical) :
    Value.SameBut names [] (Value.ofEntries f entries).canonical (Value.ofEntries g entries).canonical ↔
      ∀ p ∈ entries, ∀ atom ∈ atoms p.2, ¬ (atom.below p.1.name).Among names [] → atom.Steady := by
  rw [Value.sameBut_nil_iff hnodup]
  refine forall₂_congr fun p hp => ?_
  simp only [among_nil_below]
  rw [← hsteady p hp]
  exact ⟨fun h atom hatom hname => h hname atom hatom, fun h hname atom hatom => h atom hatom hname⟩

theorem sameBut_cons_iff (hnodup : (Toml.names entries).Nodup)
    (hsteady : ∀ p ∈ entries, (∀ atom ∈ atoms p.2, atom.Steady) ↔
      (f p.2).canonical = (g p.2).canonical) {key : Key} {a : α} (hmem : (key, a) ∈ entries)
    (hrest : Value.SameBut names path (f a).canonical (g a).canonical ↔
      ∀ atom ∈ atoms a, ¬ atom.Among names path → atom.Steady) :
    Value.SameBut names (key.name :: path) (Value.ofEntries f entries).canonical
        (Value.ofEntries g entries).canonical ↔
      ∀ p ∈ entries, ∀ atom ∈ atoms p.2,
        ¬ (atom.below p.1.name).Among names (key.name :: path) → atom.Steady := by
  rw [Value.sameBut_cons_iff hnodup hmem, hrest]
  simp only [among_cons_below, not_and]
  constructor
  · rintro ⟨hother, hbelow⟩ p hp atom hatom hnot
    by_cases hname : p.1.name = key.name
    · obtain rfl : p = (key, a) := eq_of_name_eq hnodup hp hmem hname
      exact hbelow atom hatom (hnot rfl)
    · exact (hsteady p hp).mpr (hother p hp hname) atom hatom
  · intro h
    refine ⟨fun p hp hname => ?_, fun atom hatom hnot => h _ hmem atom hatom fun _ => hnot⟩
    exact (hsteady p hp).mp fun atom hatom => h p hp atom hatom fun e => absurd e hname

end entries

end Atom

namespace Expr

mutual

def atoms : Expr → List Atom
  | .scalar v w _ => [⟨[], v, w⟩]
  | .array elements _ _ _ => elementAtoms elements
  | .table entries _ _ _ => entryAtoms entries

def elementAtoms : List Expr → List Atom
  | [] => []
  | e :: es => e.atoms ++ elementAtoms es

def entryAtoms : List (Key × Expr) → List Atom
  | [] => []
  | (key, e) :: entries => e.atoms.map (Atom.below key.name) ++ entryAtoms entries

end

variable {entries : List (Key × Expr)} {dotted : Bool} {lead : Text} {around : Option Surround}

theorem value_table : (table entries dotted lead around).value = Value.ofEntries value entries := by
  rw [value, Value.ofEntries]
  congr 1
  induction entries with
  | nil => rfl
  | cons p entries ih => rw [entryValues, ih, List.map_cons]

theorem settledValue_table :
    (table entries dotted lead around).settledValue = Value.ofEntries settledValue entries := by
  rw [settledValue, Value.ofEntries]
  congr 1
  induction entries with
  | nil => rfl
  | cons p entries ih => rw [settledEntries, ih, List.map_cons]

theorem Sound.nodup {depth budget : Nat} (h : (table entries dotted lead around).Sound depth budget) :
    (names entries).Nodup ∧ ∃ depth budget, EntriesSound depth budget entries := by
  cases dotted with
  | false =>
    rw [Sound] at h
    obtain ⟨d, -, -, hnodup, hsound⟩ := h
    exact ⟨hnodup, _, _, hsound⟩
  | true =>
    rw [Sound] at h
    obtain ⟨b, -, -, hnodup, hsound⟩ := h
    exact ⟨hnodup, _, _, hsound⟩

theorem forall_atoms_table {good : Atom → Prop} :
    (∀ atom ∈ (table entries dotted lead around).atoms, good atom) ↔
      ∀ p ∈ entries, ∀ atom ∈ p.2.atoms, good (atom.below p.1.name) := by
  rw [atoms]
  induction entries with
  | nil => simp [entryAtoms]
  | cons p entries ih =>
    rw [entryAtoms, List.forall_mem_append, ih, List.forall_mem_cons, List.forall_mem_map]

mutual

theorem steady_iff : (e : Expr) → (∃ depth budget, e.Sound depth budget) →
    ((∀ atom ∈ e.atoms, atom.Steady) ↔ e.value.canonical = e.settledValue.canonical)
  | .scalar v w around, _ => by
    rw [atoms, List.forall_mem_singleton, value, settledValue, Value.canonical, Value.canonical,
      Value.scalar.injEq]
    exact eq_comm
  | .array elements comma trail around, h => by
    obtain ⟨depth, budget, h⟩ := h
    rw [Sound] at h
    obtain ⟨d, -, helements, -⟩ := h
    rw [atoms, value, settledValue, Value.canonical, Value.canonical, Value.array.injEq]
    exact elements_steady_iff elements fun e he => ⟨_, _, (elementsSound_iff.mp helements e he).1⟩
  | .table entries dotted lead around, h => by
    obtain ⟨depth, budget, h⟩ := h
    obtain ⟨hnodup, depth', budget', hsound⟩ := h.nodup
    rw [value_table, settledValue_table, Value.canonical_ofEntries_iff hnodup, atoms]
    exact entries_steady_iff entries fun p hp => ⟨_, _, (entriesSound_iff.mp hsound p hp).2.2.2⟩

theorem elements_steady_iff : (es : List Expr) → (∀ e ∈ es, ∃ depth budget, e.Sound depth budget) →
    ((∀ atom ∈ elementAtoms es, atom.Steady) ↔
      Value.canonicalAll (elementValues es) = Value.canonicalAll (settledElements es))
  | [], _ => by simp [elementAtoms, elementValues, settledElements]
  | e :: es, h => by
    obtain ⟨he, hes⟩ := List.forall_mem_cons.mp h
    rw [elementAtoms, List.forall_mem_append, steady_iff e he, elements_steady_iff es hes,
      elementValues, settledElements, Value.canonicalAll, Value.canonicalAll, List.cons.injEq]

theorem entries_steady_iff : (entries : List (Key × Expr)) →
    (∀ p ∈ entries, ∃ depth budget, p.2.Sound depth budget) →
      ((∀ atom ∈ entryAtoms entries, atom.Steady) ↔
        ∀ p ∈ entries, p.2.value.canonical = p.2.settledValue.canonical)
  | [], _ => by simp [entryAtoms]
  | (key, e) :: entries, h => by
    obtain ⟨he, hentries⟩ := List.forall_mem_cons.mp h
    rw [entryAtoms, List.forall_mem_append, List.forall_mem_map, List.forall_mem_cons,
      ← entries_steady_iff entries hentries, ← steady_iff e he]
    simp only [Atom.steady_below]

end

theorem sameBut_iff {names path : List Text} {fields : List (Text × Text)} {e new : Expr}
    (h : e.update? fields path = some new) (he : ∃ depth budget, e.Sound depth budget) :
    Value.SameBut names path e.value.canonical e.settledValue.canonical ↔
      ∀ atom ∈ e.atoms, ¬ atom.Among names path → atom.Steady := by
  have hentries : ∀ {entries : List (Key × Expr)} {dotted : Bool} {lead : Text}
      {around : Option Surround}, (∃ depth budget, (table entries dotted lead around).Sound depth budget) →
        (Toml.names entries).Nodup ∧ ∀ p ∈ entries, ∃ depth budget, p.2.Sound depth budget := by
    rintro entries dotted lead around ⟨depth, budget, htable⟩
    obtain ⟨hnodup, depth', budget', hsound⟩ := htable.nodup
    exact ⟨hnodup, fun p hp => ⟨_, _, (entriesSound_iff.mp hsound p hp).2.2.2⟩⟩
  induction path generalizing e new with
  | nil =>
    cases e with
    | scalar => cases h
    | array => cases h
    | table entries dotted lead around =>
      obtain ⟨hnodup, hsound⟩ := hentries he
      rw [value_table, settledValue_table, forall_atoms_table]
      exact Atom.sameBut_nil_iff hnodup fun p hp => steady_iff p.2 (hsound p hp)
  | cons name path ih =>
    cases e with
    | scalar => cases h
    | array => cases h
    | table entries dotted lead around =>
      obtain ⟨hnodup, hsound⟩ := hentries he
      rw [update?] at h
      split at h
      · cases h
      · next key old hfind =>
        obtain ⟨sub, hsub, -⟩ := Option.map_eq_some_iff.mp h
        have hmem := List.mem_of_find?_eq_some hfind
        obtain rfl : key.name = name := by simpa using List.find?_some hfind
        rw [value_table, settledValue_table, forall_atoms_table]
        exact Atom.sameBut_cons_iff hnodup (fun p hp => steady_iff p.2 (hsound p hp)) hmem
          (ih hsub (hsound _ hmem))

end Expr

namespace Member

mutual

def atoms : Member → List Atom
  | .expr e => e.atoms
  | .table _ entries => entryAtoms entries
  | .tables elements => elementAtoms elements

def entryAtoms : List (Key × Member) → List Atom
  | [] => []
  | (key, member) :: entries => member.atoms.map (Atom.below key.name) ++ entryAtoms entries

def elementAtoms : List (Heading × List (Key × Member)) → List Atom
  | [] => []
  | (_, entries) :: elements => entryAtoms entries ++ elementAtoms elements

end

theorem forall_entryAtoms {good : Atom → Prop} {entries : Entries} :
    (∀ atom ∈ entryAtoms entries, good atom) ↔
      ∀ p ∈ entries, ∀ atom ∈ p.2.atoms, good (atom.below p.1.name) := by
  induction entries with
  | nil => simp [entryAtoms]
  | cons p entries ih =>
    rw [entryAtoms, List.forall_mem_append, ih, List.forall_mem_cons, List.forall_mem_map]

theorem forall_elementAtoms {good : Atom → Prop} {elements : List (Heading × Entries)} :
    (∀ atom ∈ elementAtoms elements, good atom) ↔
      ∀ element ∈ elements, ∀ atom ∈ entryAtoms element.2, good atom := by
  induction elements with
  | nil => simp [elementAtoms]
  | cons element elements ih => rw [elementAtoms, List.forall_mem_append, ih, List.forall_mem_cons]

theorem table_entryValuesBy (f : Expr → Value) (entries : Entries) :
    Value.table (entryValuesBy f entries) = Value.ofEntries (valueBy f) entries := by
  rw [entryValuesBy_eq, Value.ofEntries]

def AtomsSteady (member : Member) : Prop := (∀ atom ∈ member.atoms, atom.Steady) ↔
  (member.valueBy Expr.value).canonical = member.settledValue.canonical

theorem entries_steady_iff {entries : Entries} (h : ∀ p ∈ entries, p.2.AtomsSteady)
    (hnodup : (names entries).Nodup) : (∀ atom ∈ entryAtoms entries, atom.Steady) ↔
      (Value.table (entryValuesBy Expr.value entries)).canonical =
        (Value.table (settledEntries entries)).canonical := by
  rw [table_entryValuesBy, settledEntries, table_entryValuesBy, Value.canonical_ofEntries_iff hnodup,
    forall_entryAtoms]
  exact forall₂_congr h

theorem steady_iff {member : Member} (hregular : ∃ lo hi, member.Regular lo hi)
    (hsound : ∃ depth body, member.Sound depth body) : member.AtomsSteady := by
  induction member using Member.induct with
  | hexpr e =>
    obtain ⟨depth, body, -, he, -⟩ := hsound
    exact Expr.steady_iff e ⟨_, _, he⟩
  | htable kind entries ih =>
    obtain ⟨lo, hi, hregular⟩ := hregular
    obtain ⟨depth, body, -, -, hsound⟩ := hsound
    have hentries := hregular.entries
    refine entries_steady_iff (fun p hp => ih p hp ⟨_, _, hentries.members p hp⟩ ?_) hentries.nodup
    exact ⟨_, _, (entriesSound_iff.mp hsound p hp).2⟩
  | htables elements ih =>
    obtain ⟨lo, hi, -, hregular⟩ := hregular
    obtain ⟨depth, body, -, hsound⟩ := hsound
    have helements : ∀ element ∈ elements, (∀ atom ∈ entryAtoms element.2, atom.Steady) ↔
        (Value.table (entryValuesBy Expr.value element.2)).canonical =
          (Value.table (settledEntries element.2)).canonical := by
      intro element helement
      obtain ⟨lo', hi', hnodup, hentries⟩ := hregular.entries element helement
      refine entries_steady_iff (fun p hp => ih element helement p hp ?_ ?_) hnodup
      · exact ⟨_, _, entriesRegular_iff.mp hentries p hp⟩
      · exact ⟨_, _, ((elementsSound_iff.mp hsound element helement).2 p hp).2⟩
    rw [AtomsSteady, atoms, forall_elementAtoms, forall₂_congr helements, settledValue, valueBy, valueBy,
      Value.canonical, Value.canonical, Value.array.injEq]
    clear hregular hsound ih helements
    induction elements with
    | nil => simp [elementValuesBy]
    | cons element elements ih =>
      rw [List.forall_mem_cons, ih, elementValuesBy, elementValuesBy, Value.canonicalAll,
        Value.canonicalAll, List.cons.injEq]

theorem sameBut_iff {names path : List Text} {fields : List (Text × Text)} {member new : Member}
    (h : member.update? fields path = some new) (hregular : ∃ lo hi, member.Regular lo hi)
    (hsound : ∃ depth body, member.Sound depth body) :
    Value.SameBut names path (member.valueBy Expr.value).canonical member.settledValue.canonical ↔
      ∀ atom ∈ member.atoms, ¬ atom.Among names path → atom.Steady := by
  have hentries : ∀ {kind : TableKind} {entries : Entries},
      (∃ lo hi, (Member.table kind entries).Regular lo hi) →
        (∃ depth body, (Member.table kind entries).Sound depth body) → (Toml.names entries).Nodup ∧
          ∀ p ∈ entries, (∃ lo hi, p.2.Regular lo hi) ∧ ∃ depth body, p.2.Sound depth body := by
    rintro kind entries ⟨lo, hi, htable⟩ ⟨depth, body, -, -, hbelow⟩
    exact ⟨htable.entries.nodup, fun p hp => ⟨⟨_, _, htable.entries.members p hp⟩,
      _, _, (entriesSound_iff.mp hbelow p hp).2⟩⟩
  have hexpr : ∀ {path : List Text} {e : Expr} {new : Member},
      (Member.expr e).update? fields path = some new →
        (∃ depth body, (Member.expr e).Sound depth body) →
          (Value.SameBut names path e.value.canonical e.settledValue.canonical ↔
            ∀ atom ∈ e.atoms, ¬ atom.Among names path → atom.Steady) := by
    rintro path e new h ⟨depth, body, -, he, -⟩
    rw [update?] at h
    obtain ⟨e', he', -⟩ := Option.map_eq_some_iff.mp h
    exact Expr.sameBut_iff he' ⟨_, _, he⟩
  induction path generalizing member new with
  | nil =>
    cases member with
    | expr e => exact hexpr h hsound
    | table kind entries =>
      obtain ⟨hnodup, hbelow⟩ := hentries hregular hsound
      rw [settledValue, valueBy, valueBy, table_entryValuesBy, table_entryValuesBy, atoms,
        forall_entryAtoms]
      exact Atom.sameBut_nil_iff hnodup fun p hp => steady_iff (hbelow p hp).1 (hbelow p hp).2
    | tables elements => cases h
  | cons name path ih =>
    cases member with
    | expr e => exact hexpr h hsound
    | table kind entries =>
      obtain ⟨hnodup, hbelow⟩ := hentries hregular hsound
      rw [update?] at h
      split at h
      · cases h
      · next old hget =>
        obtain ⟨sub, hsub, -⟩ := Option.map_eq_some_iff.mp h
        obtain ⟨key, hmem, rfl⟩ := Entries.exists_mem_of_get? hget
        rw [settledValue, valueBy, valueBy, table_entryValuesBy, table_entryValuesBy, atoms,
          forall_entryAtoms]
        exact Atom.sameBut_cons_iff hnodup (fun p hp => steady_iff (hbelow p hp).1 (hbelow p hp).2)
          hmem (ih hsub (hbelow _ hmem).1 (hbelow _ hmem).2)
    | tables elements => cases h

end Member

namespace Document

def atoms (doc : Document) : List Atom := Member.entryAtoms doc.root

/-- Stripping the ends of lines leaves all but some fields of a table as they are just if every atom
elsewhere is steady. -/
theorem sameBut_iff {doc new : Document} {table : Text} {names path : List Text}
    {fields : List (Text × Text)} (h : doc.update? table path fields = some new)
    (hregular : ∃ lo hi, doc.root.Regular lo hi) (hsound : doc.root.Sound 0 0) :
    Value.SameBut names (table :: path) (Value.table doc.entries).canonical doc.settledValue.canonical ↔
      ∀ atom ∈ doc.atoms, ¬ atom.Among names (table :: path) → atom.Steady := by
  obtain ⟨lo, hi, hregular⟩ := hregular
  have hbelow : ∀ p ∈ doc.root, (∃ lo hi, p.2.Regular lo hi) ∧ ∃ depth body, p.2.Sound depth body :=
    fun p hp => ⟨⟨_, _, hregular.members p hp⟩, _, _, (hsound p hp).2⟩
  unfold update? at h
  split at h
  · cases h
  · next member hget =>
    obtain ⟨sub, hsub, -⟩ := Option.map_eq_some_iff.mp h
    obtain ⟨key, hmem, rfl⟩ := Entries.exists_mem_of_get? hget
    rw [entries, Member.entryValues_eq, settledValue, Member.table_entryValuesBy,
      Member.table_entryValuesBy, atoms, Member.forall_entryAtoms]
    exact Atom.sameBut_cons_iff hregular.nodup
      (fun p hp => Member.steady_iff (hbelow p hp).1 (hbelow p hp).2) hmem
      (Member.sameBut_iff hsub (hbelow _ hmem).1 (hbelow _ hmem).2)

end Document

end DeploymentRecords.Toml
