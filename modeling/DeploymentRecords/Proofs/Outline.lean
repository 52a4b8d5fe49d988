import DeploymentRecords.Toml.Document

/-! # Outlines

The tables of a document without layout and order: a tree of names. A statement changes what one
name of the root stands for, so a run of statements comes apart into one run for each name. -/

namespace DeploymentRecords.Toml

inductive Origin where
  | headed
  | implied
  | dotted

inductive Outline where
  | value (v : Value)
  | table (origin : Origin) (entries : Text → Option Outline)
  | tables (elements : List (Text → Option Outline))

abbrev Outlines := Text → Option Outline

namespace Outlines

def empty : Outlines := fun _ => none

def set (t : Outlines) (x : Text) (o : Outline) : Outlines := fun y => if y = x then some o else t y

theorem set_self (t : Outlines) (x : Text) (o : Outline) : t.set x o x = some o := if_pos rfl

theorem set_other (t : Outlines) {x y : Text} (h : y ≠ x) (o : Outline) : t.set x o y = t y := if_neg h

def change? (x : Text) (change : Option Outline → Option Outline) (t : Outlines) : Option Outlines :=
  (change (t x)).map (t.set x)

end Outlines

/-- A value under a path of dotted keys; it can be added directly only where `direct` says so. -/
def assignSlot? (direct : Bool) : List Text → Value → Option Outline → Option Outline
  | [], v, none => if direct then some (.value v) else none
  | [], _, some _ => none
  | y :: path, v, none => (Outlines.empty.change? y (assignSlot? true path v)).map (.table .dotted)
  | y :: path, v, some (.table .dotted t) =>
    (Outlines.change? y (assignSlot? true path v) t).map (.table .dotted)
  | y :: path, v, some (.table .implied t) =>
    (Outlines.change? y (assignSlot? false path v) t).map (.table .implied)
  | y :: path, v, some (.tables (t :: ts)) =>
    (Outlines.change? y (assignSlot? false path v) t).map fun t => .tables (t :: ts)
  | _ :: _, _, some _ => none

inductive Deed where
  | header (array : Bool)
  | assign (path : List Text) (v : Value)
  | inside (name : Text) (deed : Deed)

namespace Deed

def perform? : Deed → Option Outline → Option Outline
  | .header false, none => some (.table .headed Outlines.empty)
  | .header false, some (.table .implied t) => some (.table .headed t)
  | .header true, none => some (.tables [Outlines.empty])
  | .header true, some (.tables ts) => some (.tables (Outlines.empty :: ts))
  | .header _, some _ => none
  | .assign path v, slot => assignSlot? true path v slot
  | .inside x deed, none => (Outlines.empty.change? x deed.perform?).map (.table .implied)
  | .inside x deed, some (.table origin t) => (Outlines.change? x deed.perform? t).map (.table origin)
  | .inside x deed, some (.tables (t :: ts)) =>
    (Outlines.change? x deed.perform? t).map fun t => .tables (t :: ts)
  | .inside _ _, some _ => none

def through : List Text → Deed → Deed
  | [], deed => deed
  | x :: path, deed => .inside x (through path deed)

theorem through_append (path : List Text) (x : Text) (deed : Deed) :
    through (path ++ [x]) deed = through path (.inside x deed) := by
  induction path with
  | nil => rfl
  | cons y path ih => rw [List.cons_append, through, ih, through]

/-- The value of a dotted key, seen from the table above. -/
def prolong (x : Text) : Deed → Deed
  | .assign path v => .assign (x :: path) v
  | deed => deed

def IsAssign (deed : Deed) : Prop := ∃ path v, deed = .assign path v

end Deed

abbrev Op := Text × Deed

def insideOf (op : Op) : Deed := .inside op.1 op.2
def prolongOf (op : Op) : Deed := op.2.prolong op.1

def placed : List Text → Op → Op
  | [], op => op
  | x :: path, op => (x, .through path (insideOf op))

theorem placed_concat {init path : List Text} {x y : Text} (h : init ++ [y] = x :: path)
    (deed : Deed) : placed init (y, deed) = (x, .through path deed) := by
  cases init with
  | nil =>
    obtain ⟨rfl, rfl⟩ := List.cons.inj h
    rfl
  | cons z init =>
    rw [List.cons_append] at h
    obtain ⟨rfl, rfl⟩ := List.cons.inj h
    rw [placed, Deed.through_append]
    rfl

def Outlines.run? (ops : List Op) (t : Outlines) : Option Outlines :=
  ops.foldlM (fun t op => Outlines.change? op.1 op.2.perform? t) t

def runSlot? (deeds : List Deed) (slot : Option Outline) : Option (Option Outline) :=
  deeds.foldlM (fun slot deed => (deed.perform? slot).map some) slot

def deedsAt (x : Text) (ops : List Op) : List Deed :=
  ops.filterMap fun op => if op.1 = x then some op.2 else none

theorem runSlot?_cons (deed : Deed) (deeds : List Deed) (slot : Option Outline) :
    runSlot? (deed :: deeds) slot = (deed.perform? slot).bind fun o => runSlot? deeds (some o) := by
  cases h : deed.perform? slot <;> simp [runSlot?, h]

theorem runSlot?_append (as bs : List Deed) (slot : Option Outline) :
    runSlot? (as ++ bs) slot = (runSlot? as slot).bind (runSlot? bs) := by
  simp only [runSlot?, List.foldlM_append]
  rfl

theorem Outlines.run?_cons (op : Op) (ops : List Op) (t : Outlines) :
    t.run? (op :: ops) = (op.2.perform? (t op.1)).bind fun o => Outlines.run? ops (t.set op.1 o) := by
  cases h : op.2.perform? (t op.1) <;> simp [run?, change?, h]

theorem Outlines.run?_append (as bs : List Op) (t : Outlines) :
    t.run? (as ++ bs) = (t.run? as).bind (Outlines.run? bs) := by
  simp only [run?, List.foldlM_append]
  rfl

/-- A run succeeds just if the run of each name does, and then has their results. -/
theorem Outlines.run?_eq_some_iff {ops : List Op} {t t' : Outlines} :
    t.run? ops = some t' ↔ ∀ x, runSlot? (deedsAt x ops) (t x) = some (t' x) := by
  induction ops generalizing t with
  | nil =>
    have hrun : t.run? [] = some t := rfl
    rw [hrun]
    refine Iff.intro (fun h x => ?_) fun h => ?_
    · rw [Option.some.inj h]
      rfl
    · exact congrArg some (funext fun x => Option.some.inj (h x))
  | cons op ops ih =>
    have hself : deedsAt op.1 (op :: ops) = op.2 :: deedsAt op.1 ops :=
      List.filterMap_cons_some (if_pos rfl)
    have hother : ∀ x, x ≠ op.1 → deedsAt x (op :: ops) = deedsAt x ops := fun x hx =>
      List.filterMap_cons_none (if_neg (Ne.symm hx))
    rw [run?_cons]
    cases happly : op.2.perform? (t op.1) with
    | none =>
      refine ⟨fun h => (by cases h), fun h => ?_⟩
      have := h op.1
      rw [hself, runSlot?_cons, happly] at this
      cases this
    | some o =>
      rw [Option.bind_some, ih]
      refine forall_congr' fun x => ?_
      by_cases hx : x = op.1
      · subst hx
        rw [hself, runSlot?_cons, happly, set_self, Option.bind_some]
      · rw [hother x hx, set_other t hx]

section inside

variable {f : Op → Deed} {wrap : Outlines → Outline} {ops : List Op}

theorem runSlot?_map
    (h : ∀ op ∈ ops, ∀ t, (f op).perform? (some (wrap t)) = (Outlines.change? op.1 op.2.perform? t).map wrap)
    (t : Outlines) : runSlot? (ops.map f) (some (wrap t)) = (t.run? ops).map fun t => some (wrap t) := by
  induction ops generalizing t with
  | nil => rfl
  | cons op ops ih =>
    obtain ⟨hop, hops⟩ := List.forall_mem_cons.mp h
    rw [List.map_cons, runSlot?_cons, hop, Outlines.run?_cons, Outlines.change?]
    cases op.2.perform? (t op.1) with
    | none => rfl
    | some o => exact ih hops _

theorem runSlot?_map_none (hne : ops ≠ [])
    (hnone : ∀ op ∈ ops, (f op).perform? none = (Outlines.empty.change? op.1 op.2.perform?).map wrap)
    (h : ∀ op ∈ ops, ∀ t, (f op).perform? (some (wrap t)) = (Outlines.change? op.1 op.2.perform? t).map wrap) :
    runSlot? (ops.map f) none = (Outlines.empty.run? ops).map fun t => some (wrap t) := by
  obtain ⟨op, ops, rfl⟩ := List.exists_cons_of_ne_nil hne
  rw [List.map_cons, runSlot?_cons, hnone op List.mem_cons_self, Outlines.run?_cons, Outlines.change?]
  cases op.2.perform? (Outlines.empty op.1) with
  | none => rfl
  | some o => exact runSlot?_map (fun op' hop => h op' (List.mem_cons_of_mem op hop)) _

end inside

theorem runSlot?_inside (origin : Origin) (ops : List Op) (t : Outlines) :
    runSlot? (ops.map insideOf) (some (.table origin t)) =
      (t.run? ops).map fun t => some (.table origin t) :=
  runSlot?_map (fun _ _ _ => rfl) t

theorem runSlot?_inside_none {ops : List Op} (hne : ops ≠ []) :
    runSlot? (ops.map insideOf) none =
      (Outlines.empty.run? ops).map fun t => some (.table .implied t) :=
  runSlot?_map_none hne (fun _ _ => rfl) fun _ _ _ => rfl

theorem runSlot?_inside_tables (ops : List Op) (t : Outlines) (ts : List Outlines) :
    runSlot? (ops.map insideOf) (some (.tables (t :: ts))) =
      (t.run? ops).map fun t => some (.tables (t :: ts)) :=
  @runSlot?_map insideOf (fun t => .tables (t :: ts)) ops (fun _ _ _ => rfl) t

theorem runSlot?_prolong_none {ops : List Op} (hne : ops ≠ [])
    (hops : ∀ op ∈ ops, op.2.IsAssign) : runSlot? (ops.map prolongOf) none =
      (Outlines.empty.run? ops).map fun t => some (.table .dotted t) := by
  refine runSlot?_map_none hne (fun op hop => ?_) fun op hop t => ?_ <;>
  · obtain ⟨path, v, hdeed⟩ := hops op hop
    rw [prolongOf, hdeed]
    rfl

/-- Where to add a value matters for its last key only. -/
theorem assignSlot?_cons (direct : Bool) (y : Text) (path : List Text) (v : Value) :
    assignSlot? direct (y :: path) v = assignSlot? true (y :: path) v := by
  funext slot
  match slot with
  | none => rfl
  | some (.value _) => rfl
  | some (.table .headed _) => rfl
  | some (.table .implied _) => rfl
  | some (.table .dotted _) => rfl
  | some (.tables []) => rfl
  | some (.tables (_ :: _)) => rfl

/-- Dotted keys may pass through an implied table as long as none of them ends in it. -/
theorem runSlot?_prolong_implied {ops : List Op}
    (hops : ∀ op ∈ ops, ∃ y path v, op.2 = .assign (y :: path) v) (t : Outlines) :
    runSlot? (ops.map prolongOf) (some (.table .implied t)) =
      (t.run? ops).map fun t => some (.table .implied t) := by
  refine runSlot?_map (fun op hop t => ?_) t
  obtain ⟨y, path, v, hdeed⟩ := hops op hop
  rw [prolongOf, hdeed, Deed.prolong, Deed.perform?, assignSlot?, assignSlot?_cons]
  rfl

theorem runSlot?_prolong_eq_none {ops : List Op} (hops : ∀ op ∈ ops, op.2.IsAssign)
    (hleaf : ∃ op ∈ ops, ∃ v, op.2 = .assign [] v) (t : Outlines) :
    runSlot? (ops.map prolongOf) (some (.table .implied t)) = none := by
  induction ops generalizing t with
  | nil =>
    obtain ⟨op, hop, -⟩ := hleaf
    cases hop
  | cons op ops ih =>
    obtain ⟨hop, hrest⟩ := List.forall_mem_cons.mp hops
    obtain ⟨path, v, hdeed⟩ := hop
    have happly : (prolongOf op).perform? (some (.table .implied t)) =
        (Outlines.change? op.1 (assignSlot? false path v) t).map (.table .implied) := by
      rw [prolongOf, hdeed]
      rfl
    rw [List.map_cons, runSlot?_cons, happly]
    cases path with
    | nil =>
      have : assignSlot? false [] v (t op.1) = none := by
        cases t op.1 <;> rfl
      rw [Outlines.change?, this]
      rfl
    | cons y path =>
      cases Outlines.change? op.1 (assignSlot? false (y :: path) v) t with
      | none => rfl
      | some t' =>
        refine ih hrest ?_ t'
        obtain ⟨leaf, hmem, w, hw⟩ := hleaf
        rcases List.mem_cons.mp hmem with rfl | hmem
        · rw [hdeed] at hw
          cases hw
        · exact ⟨leaf, hmem, w, hw⟩

namespace Outline

mutual

def plain : Outline → Outline
  | .value v => .value v
  | .table _ t => .table .implied fun x => plainSlot (t x)
  | .tables ts => .tables (plainElements ts)

def plainSlot : Option Outline → Option Outline
  | none => none
  | some o => some o.plain

def plainElements : List (Text → Option Outline) → List (Text → Option Outline)
  | [] => []
  | t :: ts => (fun x => plainSlot (t x)) :: plainElements ts

end

end Outline

def Outlines.plain (t : Outlines) : Outlines := fun x => Outline.plainSlot (t x)

theorem Outline.plain_table (origin : Origin) (t : Outlines) :
    (Outline.table origin t).plain = .table .implied t.plain := by
  rw [Outline.plain]
  rfl

theorem Outline.plain_tables (ts : List Outlines) :
    (Outline.tables ts).plain = .tables (ts.map Outlines.plain) := by
  have : ∀ us : List Outlines, Outline.plainElements us = us.map Outlines.plain := by
    intro us
    induction us with
    | nil => rw [Outline.plainElements]; rfl
    | cons u us ih => rw [Outline.plainElements, ih]; rfl
  rw [Outline.plain, this]

end DeploymentRecords.Toml
