import DeploymentRecords.Proofs.Histories
import DeploymentRecords.Proofs.RepeatedEdit
import DeploymentRecords.Proofs.SourceFields

/-! # Independent changes

Changes of different networks, or of different fields that a network has already, can change places.
Two edits below different names of one table do not meet, and two edits of one table are one edit, of
which only the last string under each name counts. -/

namespace DeploymentRecords.Toml

section changeAt

variable {α : Type} {x y : Text} {entries : List (Key × α)}

def put (name : Text) (new : α) (entries : List (Key × α)) : List (Key × α) :=
  entries.map fun (key, old) => if key.name = name then (key, new) else (key, old)

/-- Changes what is under a name, if something is there and the change succeeds. -/
def changeAt? (change : α → Option α) (name : Text) (entries : List (Key × α)) : Option (List (Key × α)) :=
  match entries.find? fun p => p.1.name = name with
  | none => none
  | some p => (change p.2).map fun new => put name new entries

theorem put_cons (name : Text) (new : α) (p : Key × α) (entries : List (Key × α)) :
    put name new (p :: entries) = (if p.1.name = name then (p.1, new) else p) :: put name new entries := rfl

theorem find?_put_self {p : Key × α} (hfind : entries.find? (fun p => p.1.name = x) = some p) (new : α) :
    (put x new entries).find? (fun p => p.1.name = x) = some (p.1, new) := by
  induction entries with
  | nil => cases hfind
  | cons q entries ih =>
    rw [put_cons]
    by_cases hq : q.1.name = x
    · rw [List.find?_cons_of_pos (by simpa using hq)] at hfind
      obtain rfl := Option.some.inj hfind
      rw [if_pos hq]
      exact List.find?_cons_of_pos (by simpa using hq)
    · rw [List.find?_cons_of_neg (by simpa using hq)] at hfind
      rw [if_neg hq, List.find?_cons_of_neg (by simpa using hq)]
      exact ih hfind

theorem find?_put_other (hne : y ≠ x) (new : α) (entries : List (Key × α)) :
    (put x new entries).find? (fun p => p.1.name = y) = entries.find? fun p => p.1.name = y := by
  induction entries with
  | nil => rfl
  | cons q entries ih =>
    rw [put_cons, List.find?_cons, List.find?_cons, ih]
    by_cases hq : q.1.name = x
    · simp [hq, Ne.symm hne]
    · simp [hq]

theorem put_put (a b : α) (entries : List (Key × α)) : put x b (put x a entries) = put x b entries := by
  induction entries with
  | nil => rfl
  | cons p entries ih =>
    rw [put_cons, put_cons, put_cons, ih]
    by_cases hp : p.1.name = x <;> simp [hp]

theorem put_comm (hne : x ≠ y) (a b : α) (entries : List (Key × α)) :
    put y b (put x a entries) = put x a (put y b entries) := by
  induction entries with
  | nil => rfl
  | cons p entries ih =>
    rw [put_cons, put_cons, put_cons, put_cons, ih]
    by_cases hx : p.1.name = x
    · simp [hx, hne]
    · by_cases hy : p.1.name = y
      · simp [hy, hne.symm]
      · simp [hx, hy]

theorem changeAt?_cases (change : α → Option α) (x : Text) (entries : List (Key × α)) :
    changeAt? change x entries = none ∨ ∃ new, changeAt? change x entries = some (put x new entries) := by
  unfold changeAt?
  split
  · exact Or.inl rfl
  · next p _ =>
    cases change p.2 with
    | none => exact Or.inl rfl
    | some new => exact Or.inr ⟨new, rfl⟩

theorem changeAt?_put (hne : x ≠ y) (change : α → Option α) (new : α) (entries : List (Key × α)) :
    changeAt? change x (put y new entries) = (changeAt? change x entries).map (put y new) := by
  unfold changeAt?
  rw [find?_put_other hne]
  split
  · rfl
  · next p _ =>
    rw [Option.map_map]
    exact congrArg (fun f => (change p.2).map f) (funext fun a => put_comm hne.symm new a entries)

/-- Changes under different names do not meet. -/
theorem changeAt?_comm (hne : x ≠ y) (change other : α → Option α) (entries : List (Key × α)) :
    (changeAt? change x entries).bind (changeAt? other y) =
      (changeAt? other y entries).bind (changeAt? change x) := by
  rcases changeAt?_cases change x entries with hx | ⟨a, hx⟩ <;>
    rcases changeAt?_cases other y entries with hy | ⟨b, hy⟩
  · rw [hx, hy, Option.bind_none, Option.bind_none]
  · rw [hx, hy, Option.bind_none, Option.bind_some, changeAt?_put hne, hx, Option.map_none]
  · rw [hx, hy, Option.bind_none, Option.bind_some, changeAt?_put hne.symm, hy, Option.map_none]
  · rw [hx, hy, Option.bind_some, Option.bind_some, changeAt?_put hne, changeAt?_put hne.symm, hx, hy,
      Option.map_some, Option.map_some, put_comm hne]

theorem changeAt?_bind (change other : α → Option α) (x : Text) (entries : List (Key × α)) :
    (changeAt? change x entries).bind (changeAt? other x) =
      changeAt? (fun a => (change a).bind other) x entries := by
  cases hfind : entries.find? fun p => p.1.name = x with
  | none => simp only [changeAt?, hfind, Option.bind_none]
  | some p =>
    cases hchange : change p.2 with
    | none => simp only [changeAt?, hfind, hchange, Option.map_none, Option.bind_none]
    | some a =>
      simp only [changeAt?, hfind, hchange, Option.map_some, Option.bind_some, find?_put_self hfind, put_put]

theorem bind_below {β : Type} {build : α → β} {step : β → Option β} {below : α → Option α}
    (h : ∀ a, step (build a) = (below a).map build) (a : Option α) :
    (a.map build).bind step = (a.bind below).map build := by
  cases a with
  | none => rfl
  | some a => exact h a

end changeAt

/-- Paths that part on the way, so that neither goes on from the end of the other. -/
def Part : List Text → List Text → Prop
  | x :: path, y :: other => x ≠ y ∨ Part path other
  | _, _ => False

variable {fields others : List (Text × Text)} {path other : List Text}

theorem Part.cases {x y : Text} (h : Part (x :: path) (y :: other)) : x ≠ y ∨ x = y ∧ Part path other := by
  by_cases hxy : x = y
  · exact Or.inr ⟨hxy, h.resolve_left fun hne => hne hxy⟩
  · exact Or.inl hxy

namespace Expr

theorem update?_cons (fields : List (Text × Text)) (name : Text) (path : List Text) (dotted : Bool)
    (lead : Text) (around : Option Surround) (entries : List (Key × Expr)) :
    (table entries dotted lead around).update? fields (name :: path) =
      (changeAt? (fun e => e.update? fields path) name entries).map fun entries =>
        .table entries dotted lead around := by
  rw [update?, changeAt?]
  split
  · next hfind => rw [hfind]; rfl
  · next key e hfind => rw [hfind, Option.map_map]; rfl

/-- Edits at paths that part do not meet. -/
theorem update?_comm (h : Part path other) (e : Expr) :
    (e.update? fields path).bind (fun e => e.update? others other) =
      (e.update? others other).bind fun e => e.update? fields path := by
  induction path generalizing e other with
  | nil => exact h.elim
  | cons x path ih =>
    cases other with
    | nil => exact h.elim
    | cons y other =>
      cases e with
      | scalar => rfl
      | array => rfl
      | table entries dotted lead around =>
        rw [update?_cons, update?_cons, bind_below (update?_cons _ _ _ dotted lead around),
          bind_below (update?_cons _ _ _ dotted lead around)]
        rcases h.cases with hne | ⟨rfl, hrest⟩
        · rw [changeAt?_comm hne]
        · rw [changeAt?_bind, changeAt?_bind, funext (ih hrest)]

/-- Two edits at one path are one edit. -/
theorem update?_append (fields others : List (Text × Text)) (path : List Text) (e : Expr) :
    e.update? (fields ++ others) path = (e.update? fields path).bind fun e => e.update? others path := by
  induction path generalizing e with
  | nil =>
    cases e with
    | scalar => rfl
    | array => rfl
    | table entries dotted lead around =>
      rw [update?, update?, List.foldl_append]
      rfl
  | cons name path ih =>
    cases e with
    | scalar => rfl
    | array => rfl
    | table entries dotted lead around =>
      rw [update?_cons, update?_cons, bind_below (update?_cons _ _ _ dotted lead around), changeAt?_bind,
        funext ih]

end Expr

namespace Member

theorem update?_expr (fields : List (Text × Text)) (path : List Text) (e : Expr) :
    (expr e).update? fields path = (e.update? fields path).map expr := by
  rw [update?]

theorem update?_cons (fields : List (Text × Text)) (name : Text) (path : List Text) (kind : TableKind)
    (entries : Entries) : (table kind entries).update? fields (name :: path) =
      (changeAt? (fun member => member.update? fields path) name entries).map (table kind) := by
  rw [update?, changeAt?, Entries.get?]
  cases entries.find? fun p => p.1.name = name with
  | none => rfl
  | some p =>
    show Option.map _ _ = Option.map _ (Option.map _ _)
    rw [Option.map_map]
    rfl

theorem update?_comm (h : Part path other) (member : Member) :
    (member.update? fields path).bind (fun member => member.update? others other) =
      (member.update? others other).bind fun member => member.update? fields path := by
  induction path generalizing member other with
  | nil => exact h.elim
  | cons x path ih =>
    cases other with
    | nil => exact h.elim
    | cons y other =>
      cases member with
      | tables => rfl
      | expr e =>
        rw [update?_expr, update?_expr, bind_below (update?_expr _ _), bind_below (update?_expr _ _),
          Expr.update?_comm h]
      | table kind entries =>
        rw [update?_cons, update?_cons, bind_below (update?_cons _ _ _ kind),
          bind_below (update?_cons _ _ _ kind)]
        rcases h.cases with hne | ⟨rfl, hrest⟩
        · rw [changeAt?_comm hne]
        · rw [changeAt?_bind, changeAt?_bind, funext (ih hrest)]

theorem update?_append (fields others : List (Text × Text)) (path : List Text) (member : Member) :
    member.update? (fields ++ others) path =
      (member.update? fields path).bind fun member => member.update? others path := by
  induction path generalizing member with
  | nil =>
    cases member with
    | tables => rfl
    | expr e => rw [update?_expr, update?_expr, bind_below (update?_expr _ _), Expr.update?_append]
    | table kind entries =>
      rw [update?, update?, List.foldl_append]
      rfl
  | cons name path ih =>
    cases member with
    | tables => rfl
    | expr e => rw [update?_expr, update?_expr, bind_below (update?_expr _ _), Expr.update?_append]
    | table kind entries =>
      rw [update?_cons, update?_cons, bind_below (update?_cons _ _ _ kind), changeAt?_bind, funext ih]

end Member

/-- The same strings count: under every name the last one is the same. -/
def SameLast (fields others : List (Text × Text)) : Prop :=
  ∀ name, fields.reverse.lookup name = others.reverse.lookup name

theorem SameLast.forall_names {P : Text → Prop} (h : SameLast fields others)
    (hfields : ∀ field ∈ fields, P field.1) : ∀ field ∈ others, P field.1 := by
  intro field hfield
  have hne : others.reverse.lookup field.1 ≠ none := by
    intro hnone
    have hdiffers := List.lookup_eq_none_iff.mp hnone field (List.mem_reverse.mpr hfield)
    simp at hdiffers
  obtain ⟨s, hs⟩ := Option.ne_none_iff_exists'.mp hne
  rw [← h] at hs
  have hmem := List.mem_reverse.mp (Value.mem_of_lookup hs)
  exact hfields (field.1, s) hmem

theorem sameLast_append_comm (h : ∀ field ∈ fields, ∀ field' ∈ others, field.1 ≠ field'.1) :
    SameLast (fields ++ others) (others ++ fields) := by
  intro name
  rw [List.reverse_append, List.reverse_append, List.lookup_append, List.lookup_append]
  cases hfields : fields.reverse.lookup name with
  | none => rw [Option.none_or, Option.or_none]
  | some s =>
    have hmem := List.mem_reverse.mp (Value.mem_of_lookup hfields)
    have hnone : others.reverse.lookup name = none := by
      refine List.lookup_eq_none_iff.mpr fun field' hfield' => ?_
      exact bne_iff_ne.mpr (h _ hmem field' (List.mem_reverse.mp hfield'))
    rw [hnone]
    rfl

/-- The order does not matter where every name comes once. -/
theorem sameLast_of_perm (h : fields.Perm others) (hnodup : (fields.map Prod.fst).Nodup) :
    SameLast fields others := by
  have hlast : ∀ {list : List (Text × Text)} {name s : Text}, (list.map Prod.fst).Nodup →
      (list.reverse.lookup name = some s ↔ (name, s) ∈ list) := by
    intro list name s hlist
    rw [← List.mem_reverse]
    rw [← List.nodup_reverse, ← List.map_reverse] at hlist
    exact ⟨Value.mem_of_lookup, AddressTable.lookup_of_mem hlist⟩
  intro name
  refine Option.ext fun s => ?_
  rw [hlast hnodup, hlast ((h.map Prod.fst).nodup_iff.mp hnodup), h.mem_iff]

theorem setAll_sameLast {α : Type} {set : List (Key × α) → Text → Text → List (Key × α)}
    {entries : List (Key × α)} (write : Text → α → α) (hwrite : ∀ s t a, write s (write t a) = write s a)
    (hset : ∀ {entries name s}, (names entries).Nodup → name ∈ names entries →
      set entries name s = entries.map fun p => (p.1, if p.1.name = name then write s p.2 else p.2))
    (hnodup : (names entries).Nodup) (hfields : ∀ field ∈ fields, field.1 ∈ names entries)
    (hlast : SameLast fields others) :
    fields.foldl (fun entries (name, s) => set entries name s) entries =
      others.foldl (fun entries (name, s) => set entries name s) entries := by
  rw [setAll_eq write hwrite hset hnodup hfields,
    setAll_eq write hwrite hset hnodup (hlast.forall_names hfields)]
  refine List.map_congr_left fun p _ => ?_
  rw [overwritten, overwritten, hlast]

def Value.HasFields (fields : List (Text × Text)) (path : List Text) (v : Value) : Prop :=
  ∀ field ∈ fields, ∃ w, v.at? (path ++ [field.1]) = some w

theorem Value.HasFields.below {v w : Value} {name : Text} (h : v.HasFields fields (name :: path))
    (hfield : v.field? name = some w) : w.HasFields fields path := by
  intro field hmem
  obtain ⟨u, hu⟩ := h field hmem
  rw [List.cons_append, at?, hfield, Option.bind_some] at hu
  exact ⟨u, hu⟩

theorem Value.HasFields.field? {v : Value} (h : v.HasFields fields []) {field : Text × Text}
    (hmem : field ∈ fields) : ∃ w, v.field? field.1 = some w := by
  obtain ⟨w, hw⟩ := h field hmem
  obtain ⟨u, hu, -⟩ := Option.bind_eq_some_iff.mp hw
  exact ⟨u, hu⟩

/-- Of strings under names that are there only the last ones count. -/
theorem Expr.update?_sameLast {e : Expr} {depth budget : Nat} (hsound : e.Sound depth budget)
    (hfields : e.value.HasFields fields path) (hlast : SameLast fields others) :
    e.update? fields path = e.update? others path := by
  induction path generalizing e depth budget with
  | nil =>
    cases e with
    | scalar => rfl
    | array => rfl
    | table entries dotted lead around =>
      have hnames : ∀ field ∈ fields, field.1 ∈ names entries := by
        intro field hmem
        obtain ⟨w, hw⟩ := hfields.field? hmem
        rw [value_table, Value.field?_ofEntries_find?] at hw
        obtain ⟨p, hp, -⟩ := Option.map_eq_some_iff.mp hw
        exact mem_names.mpr ⟨p, List.mem_of_find?_eq_some hp, by simpa using List.find?_some hp⟩
      rw [update?, update?, setAll_sameLast (fun s old => string s old.around) (fun _ _ _ => rfl)
        (fun _ h => set_eq _ h) hsound.nodup_names.1 hnames hlast]
  | cons name path ih =>
    cases e with
    | scalar => rfl
    | array => rfl
    | table entries dotted lead around =>
      rw [update?_cons, update?_cons, changeAt?, changeAt?]
      cases hfind : entries.find? fun p => p.1.name = name with
      | none => rfl
      | some p =>
        obtain ⟨-, d, b, hentries⟩ := hsound.nodup_names
        have hbelow : p.2.value.HasFields fields path := by
          refine hfields.below ?_
          rw [value_table, Value.field?_ofEntries_find?, hfind]
          rfl
        dsimp only
        rw [ih (entriesSound_iff.mp hentries p (List.mem_of_find?_eq_some hfind)).2.2.2 hbelow]

theorem Member.update?_sameLast {member : Member} {lo hi depth body : Nat}
    (hregular : member.Regular lo hi) (hsound : member.Sound depth body)
    (hfields : (member.valueBy Expr.value).HasFields fields path) (hlast : SameLast fields others) :
    member.update? fields path = member.update? others path := by
  induction path generalizing member depth body with
  | nil =>
    cases member with
    | tables => rfl
    | expr e => rw [update?_expr, update?_expr, Expr.update?_sameLast hsound.2.1 hfields hlast]
    | table kind entries =>
      have hnames : ∀ field ∈ fields, field.1 ∈ names entries := by
        intro field hmem
        obtain ⟨w, hw⟩ := hfields.field? hmem
        rw [valueBy, Value.field?_table, lookup_entryValuesBy] at hw
        obtain ⟨m, hm, -⟩ := Option.map_eq_some_iff.mp hw
        obtain ⟨key, hentry, hname⟩ := Entries.exists_mem_of_get? hm
        exact mem_names.mpr ⟨_, hentry, hname⟩
      rw [update?, update?, setAll_sameLast (fun s old => .expr (.string s old.around)) (fun _ _ _ => rfl)
        (Entries.set_eq _) hregular.entries.nodup hnames hlast]
  | cons name path ih =>
    cases member with
    | tables => rfl
    | expr e => rw [update?_expr, update?_expr, Expr.update?_sameLast hsound.2.1 hfields hlast]
    | table kind entries =>
      rw [update?, update?]
      cases hget : Entries.get? name entries with
      | none => rfl
      | some old =>
        have hbelow : (old.valueBy Expr.value).HasFields fields path := by
          refine hfields.below ?_
          rw [valueBy, Value.field?_table, lookup_entryValuesBy, hget]
          rfl
        have hentries := entriesSound_iff.mp hsound.2.2
        dsimp only
        rw [ih (hregular.entries.of_get? hget) (hentries.of_get? hget) hbelow]

namespace Document

variable {table : Text}

theorem update?_eq (table : Text) (path : List Text) (fields : List (Text × Text)) (trail : Text)
    (root : Entries) : (Document.mk root trail).update? table path fields =
      (changeAt? (fun member => member.update? fields path) table root).map fun root => ⟨root, trail⟩ := by
  rw [update?, changeAt?, Entries.get?]
  dsimp only
  cases root.find? fun p => p.1.name = table with
  | none => rfl
  | some p =>
    show Option.map _ _ = Option.map _ (Option.map _ _)
    rw [Option.map_map]
    rfl

theorem update?_comm (h : Part path other) (doc : Document) :
    (doc.update? table path fields).bind (fun doc => doc.update? table other others) =
      (doc.update? table other others).bind fun doc => doc.update? table path fields := by
  obtain ⟨root, trail⟩ := doc
  rw [update?_eq, update?_eq, bind_below (update?_eq _ _ _ trail), bind_below (update?_eq _ _ _ trail),
    changeAt?_bind, changeAt?_bind, funext (Member.update?_comm h)]

theorem update?_append (fields others : List (Text × Text)) (doc : Document) :
    doc.update? table path (fields ++ others) =
      (doc.update? table path fields).bind fun doc => doc.update? table path others := by
  obtain ⟨root, trail⟩ := doc
  rw [update?_eq, update?_eq, bind_below (update?_eq _ _ _ trail), changeAt?_bind,
    funext (Member.update?_append fields others path)]

theorem update?_sameLast {doc : Document} (hdoc : doc.Sound)
    (hfields : (Value.table doc.entries).HasFields fields (table :: path)) (hlast : SameLast fields others) :
    doc.update? table path fields = doc.update? table path others := by
  rw [update?, update?]
  cases hget : doc.root.get? table with
  | none => rfl
  | some member =>
    obtain ⟨hi, hregular⟩ := hdoc.regular
    have hbelow : (member.valueBy Expr.value).HasFields fields path := by
      refine hfields.below ?_
      rw [Value.field?_table, entries, Member.entryValues_eq, Member.lookup_entryValuesBy, hget]
      rfl
    dsimp only
    rw [Member.update?_sameLast (hregular.of_get? hget) (hdoc.entries.of_get? hget) hbelow hlast]

end Document

end DeploymentRecords.Toml

namespace DeploymentRecords.DeploymentFile

open Toml

variable {file new : DeploymentFile} {path : Files.Path} {s : Text} {a b : Change}

def answer (file : DeploymentFile) (change : Change) : Except Failure (List Written) :=
  (file.assign change.network change.values).map Prod.fst

def Has (file : DeploymentFile) (change : Change) : Prop :=
  ∀ value ∈ change.values,
    ((Value.table file.document.entries).at? [Plan.networksKey, change.network, value.1]).isSome

instance (file : DeploymentFile) (change : Change) : Decidable (file.Has change) :=
  inferInstanceAs (Decidable (∀ value ∈ change.values, (Value.at? _ _).isSome))

/-- Changes of different networks, or of different fields of a network which are all there. -/
def Independent (file : DeploymentFile) (a b : Change) : Prop :=
  a.network ≠ b.network ∨ a.network = b.network ∧
    (∀ value ∈ a.values, ∀ other ∈ b.values, value.1 ≠ other.1) ∧ file.Has a ∧ file.Has b

instance (file : DeploymentFile) (a b : Change) : Decidable (file.Independent a b) :=
  inferInstanceAs (Decidable (_ ∨ _ ∧ _ ∧ _ ∧ _))

def edit? (file : DeploymentFile) (change : Change) : Option Document :=
  file.document.update? Plan.networksKey [change.network] (writtenFields change.values)

theorem answer_eq (file : DeploymentFile) (change : Change) : file.answer change =
    if (file.edit? change).isSome then .ok (trimmed change.values)
    else .error (.noSection change.network file.path) := by
  have hfields : ((trimmed change.values).map fun w => (w.field, w.value)) = writtenFields change.values := rfl
  unfold answer assign edit?
  dsimp only
  rw [hfields]
  cases file.document.update? Plan.networksKey [change.network] (writtenFields change.values) <;> rfl

theorem attempt_of_none {change : Change} (h : file.edit? change = none) : file.attempt change = file := by
  obtain ⟨failure, hassign⟩ := assign_eq_error_iff.mpr h
  rw [attempt, hassign]

theorem attempt_of_some {change : Change} {doc : Document} (h : file.edit? change = some doc) :
    file.attempt change = { file with document := doc } := by
  have hfields : ((trimmed change.values).map fun w => (w.field, w.value)) = writtenFields change.values := rfl
  unfold edit? at h
  unfold attempt assign
  dsimp only
  rw [hfields, h]

theorem path_attempt (file : DeploymentFile) (change : Change) : (file.attempt change).path = file.path := by
  rcases file.attempt_cases change with hsame | ⟨hpath, -⟩
  · rw [hsame]
  · exact hpath

/-- No change makes a network that is refused accepted, or the other way round. -/
theorem isSome_edit?_attempt (file : DeploymentFile) (a b : Change) :
    ((file.attempt a).edit? b).isSome = (file.edit? b).isSome := by
  cases hedit : file.edit? a with
  | none => rw [attempt_of_none hedit]
  | some doc =>
    rw [attempt_of_some hedit]
    have hlength : [Plan.networksKey, b.network].length ≤ [Plan.networksKey, a.network].length := Nat.le_refl _
    rw [Bool.eq_iff_iff]
    refine (Document.update?_isSome_iff Expr.tableLike_settledValue).trans ?_
    refine Iff.trans ?_ (Document.update?_isSome_iff Expr.tableLike_settledValue).symm
    exact (Document.update?_overwritten hedit).hasTable_iff hlength

theorem Has.hasFields {change : Change} (h : file.Has change) :
    (Value.table file.document.entries).HasFields (writtenFields change.values)
      [Plan.networksKey, change.network] := by
  rw [Value.HasFields, writtenFields_eq, List.forall_mem_map]
  exact fun value hvalue => Option.isSome_iff_exists.mp (h value hvalue)

theorem edit?_comm (hdoc : file.document.Sound) (h : file.Independent a b) :
    (file.edit? a).bind (fun doc => doc.update? Plan.networksKey [b.network] (writtenFields b.values)) =
      (file.edit? b).bind fun doc => doc.update? Plan.networksKey [a.network] (writtenFields a.values) := by
  unfold edit?
  rcases h with hne | ⟨hnetwork, hdisjoint, ha, hb⟩
  · have hpart : Part [a.network] [b.network] := Or.inl hne
    exact Document.update?_comm hpart file.document
  · have hnames : ∀ field ∈ writtenFields a.values, ∀ field' ∈ writtenFields b.values, field.1 ≠ field'.1 := by
      rw [writtenFields_eq, writtenFields_eq, List.forall_mem_map]
      intro value hvalue
      rw [List.forall_mem_map]
      exact hdisjoint value hvalue
    have hfields : (Value.table file.document.entries).HasFields
        (writtenFields a.values ++ writtenFields b.values) [Plan.networksKey, b.network] := by
      refine List.forall_mem_append.mpr ⟨?_, hb.hasFields⟩
      rw [← hnetwork]
      exact ha.hasFields
    rw [hnetwork, ← Document.update?_append, ← Document.update?_append]
    exact Document.update?_sameLast hdoc hfields (sameLast_append_comm hnames)

theorem edit?_attempt_eq_none (a : Change) (h : file.edit? b = none) : (file.attempt a).edit? b = none := by
  rw [← Option.not_isSome_iff_eq_none, isSome_edit?_attempt, h]
  exact Bool.false_ne_true

theorem attempt_comm (hdoc : file.document.Sound) (h : file.Independent a b) :
    (file.attempt a).attempt b = (file.attempt b).attempt a := by
  cases ha : file.edit? a with
  | none => rw [attempt_of_none ha, attempt_of_none (edit?_attempt_eq_none b ha)]
  | some new =>
    cases hb : file.edit? b with
    | none => rw [attempt_of_none hb, attempt_of_none (edit?_attempt_eq_none a hb)]
    | some other =>
      have hsame : (file.attempt a).edit? b = (file.attempt b).edit? a := by
        have hcomm := edit?_comm hdoc h
        rw [ha, hb] at hcomm
        rw [attempt_of_some ha, attempt_of_some hb]
        exact hcomm
      have hsome : ((file.attempt a).edit? b).isSome := by
        rw [isSome_edit?_attempt, hb, Option.isSome_some]
      obtain ⟨last, hlast⟩ := Option.isSome_iff_exists.mp hsome
      rw [attempt_of_some hlast, attempt_of_some (hsame.symm.trans hlast), path_attempt, path_attempt]

theorem sound_after (hfile : ofText path s = .ok file) (history : List Change) :
    (file.after history).document.Sound := by
  have hstep : ∀ {new : DeploymentFile} (change : Change), new.document.Sound →
      (new.attempt change).document.Sound := by
    intro new change hnew
    rcases new.attempt_cases change with hsame | ⟨-, hupdate⟩
    · rw [hsame]
      exact hnew
    · exact hnew.update? hupdate (show 3 < Key.maxPath by decide)
  have hrun : ∀ {new : DeploymentFile}, new.document.Sound → (new.after history).document.Sound := by
    induction history with
    | nil => exact fun hnew => hnew
    | cons change history ih => exact fun hnew => ih (hstep change hnew)
  exact hrun (Document.sound_of_read? (read?_of_ofText hfile))

/-- A change answers the same after another one: no change makes or unmakes a section. -/
theorem answer_attempt (file : DeploymentFile) (a b : Change) : (file.attempt a).answer b = file.answer b := by
  rw [answer_eq, answer_eq, isSome_edit?_attempt, path_attempt]

/-- Values of different fields that are all there can be given in any order. -/
theorem attempt_perm (hdoc : file.document.Sound) {network : Text} {values others : List (Text × Text)}
    (hhas : file.Has ⟨network, values⟩) (hnodup : (values.map Prod.fst).Nodup) (hperm : values.Perm others) :
    file.attempt ⟨network, values⟩ = file.attempt ⟨network, others⟩ := by
  have hlast : SameLast (writtenFields values) (writtenFields others) := by
    refine sameLast_of_perm ?_ (by rwa [map_fst_writtenFields])
    rw [writtenFields_eq, writtenFields_eq]
    exact hperm.map _
  have hsame : file.edit? ⟨network, values⟩ = file.edit? ⟨network, others⟩ :=
    Document.update?_sameLast hdoc hhas.hasFields hlast
  cases hedit : file.edit? ⟨network, values⟩ with
  | none => rw [attempt_of_none hedit, attempt_of_none (hsame ▸ hedit)]
  | some doc => rw [attempt_of_some hedit, attempt_of_some (hsame ▸ hedit)]

/-- After any history, independent changes answer the same in both orders and leave the same text; and
so do the values of one change in every order, if their fields are different and all there. -/
theorem independent_changes_commute (hfile : ofText path s = .ok file) (history : List Change) :
    (∀ a b, (file.after history).Independent a b →
      ((file.after history).attempt b).answer a = (file.after history).answer a ∧
      ((file.after history).attempt a).answer b = (file.after history).answer b ∧
      (((file.after history).attempt a).attempt b).text = (((file.after history).attempt b).attempt a).text) ∧
    ∀ network values others, (file.after history).Has ⟨network, values⟩ → (values.map Prod.fst).Nodup →
      values.Perm others →
      ((file.after history).attempt ⟨network, values⟩).text =
        ((file.after history).attempt ⟨network, others⟩).text := by
  have hdoc := sound_after hfile history
  refine ⟨fun a b h => ⟨?_, ?_, ?_⟩, fun network values others hhas hnodup hperm => ?_⟩
  · exact answer_attempt _ b a
  · exact answer_attempt _ a b
  · rw [attempt_comm hdoc h]
  · rw [attempt_perm hdoc hhas hnodup hperm]

def nestedText : Text :=
  "[deployment.anvil]\nadmin = '0x1' # old\nverifier.x = 1\n[deployment.anvil.zkc]\nx = 1\n[deployment.base.y]\n".toList

def nestedHistory : List Change :=
  [⟨"anvil".toList, [("vezkc".toList, "0x5".toList)]⟩, ⟨"main".toList, [("zkc".toList, "0x6".toList)]⟩]

def tableChange : Change :=
  ⟨"anvil".toList, [("zkc".toList, "0x2".toList), ("admin".toList, " ".toList), ("zkc".toList, "a\nb".toList)]⟩

def dottedChange : Change := ⟨"anvil".toList, [("vezkc".toList, "0x3".toList), ("verifier".toList, "'".toList)]⟩

def impliedChange : Change := ⟨"base".toList, [("admin".toList, "0x4".toList)]⟩

theorem independent_nested_changes_commute : ∃ file, ofText [] nestedText = .ok file ∧
    let current := file.after nestedHistory
    current.Independent tableChange dottedChange ∧ current.Independent tableChange impliedChange ∧
    (current.attempt dottedChange).answer tableChange = current.answer tableChange ∧
    ((current.attempt tableChange).attempt dottedChange).text =
      ((current.attempt dottedChange).attempt tableChange).text ∧
    ((current.attempt tableChange).attempt impliedChange).text =
      ((current.attempt impliedChange).attempt tableChange).text ∧
    (current.attempt dottedChange).text =
      (current.attempt ⟨dottedChange.network, dottedChange.values.reverse⟩).text := by
  obtain ⟨file, hfile, -, hgood⟩ := exists_file nestedText (fun file =>
    decide ((file.after nestedHistory).Independent tableChange dottedChange ∧
      (file.after nestedHistory).Has dottedChange)) (by decide +kernel)
  obtain ⟨hsame, hhas⟩ := of_decide_eq_true hgood
  have hother : (file.after nestedHistory).Independent tableChange impliedChange := Or.inl (by decide)
  obtain ⟨hchanges, hvalues⟩ := independent_changes_commute hfile nestedHistory
  obtain ⟨hanswer, -, htext⟩ := hchanges tableChange dottedChange hsame
  obtain ⟨-, -, himplied⟩ := hchanges tableChange impliedChange hother
  exact ⟨file, hfile, hsame, hother, hanswer, htext, himplied,
    hvalues _ _ _ hhas (by decide) dottedChange.values.reverse_perm.symm⟩

end DeploymentRecords.DeploymentFile
