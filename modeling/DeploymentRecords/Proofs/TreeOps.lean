import DeploymentRecords.Proofs.Growth
import DeploymentRecords.Proofs.Schedule
import DeploymentRecords.Proofs.TreeSteps
import Mathlib.Data.List.Basic

/-! # The deeds of a tree

A tree is written as the body of its root and then block by block. What is done to one name is, in
its order, what the member of that name writes on its own. -/

namespace DeploymentRecords.Toml

open Sorting

namespace Member

theorem entriesBody_flatMap (path : List Key) (entries : Entries) :
    entriesBody path entries = entries.flatMap fun p => p.2.body (path ++ [p.1]) := by
  induction entries with
  | nil => rfl
  | cons p entries ih => rw [entriesBody, ih]; rfl

theorem entriesBlocks_flatMap (path : List Key) (entries : Entries) :
    entriesBlocks path entries = entries.flatMap fun p => p.2.blocks (path ++ [p.1]) := by
  induction entries with
  | nil => rfl
  | cons p entries ih => rw [entriesBlocks, ih]; rfl

theorem elementBlocks_flatMap (path : List Key) (elements : List (Heading × Entries)) :
    elementBlocks path elements = elements.flatMap fun element =>
      ⟨true, path, some element.1, entriesBody [] element.2⟩ :: entriesBlocks path element.2 := by
  induction elements with
  | nil => rfl
  | cons element elements ih => rw [elementBlocks, ih]; rfl

theorem body_eq (path : List Key) (member : Member) :
    member.body path = (member.body []).map fun q => (path ++ q.1, q.2) := by
  induction member using induct generalizing path with
  | hexpr e => simp [body]
  | htable kind entries ih =>
    cases kind with
    | headed heading => rfl
    | implied => rfl
    | dotted =>
      rw [body, body, entriesBody_flatMap, entriesBody_flatMap, List.map_flatMap]
      refine List.flatMap_congr fun p hp => ?_
      rw [ih p hp (path ++ [p.1]), ih p hp ([] ++ [p.1]), List.map_map]
      simp [Function.comp_def]
  | htables elements => rfl

theorem entriesBody_eq (path : List Key) (entries : Entries) :
    entriesBody path entries =
      entries.flatMap fun p => (p.2.body []).map fun q => (path ++ p.1 :: q.1, q.2) := by
  rw [entriesBody_flatMap]
  refine List.flatMap_congr fun p _ => ?_
  rw [body_eq]
  simp

def Block.under (path : List Key) (block : Block) : Block := { block with path := path ++ block.path }

theorem blocks_eq (path : List Key) (member : Member) :
    member.blocks path = (member.blocks []).map (Block.under path) := by
  have hentries : ∀ entries : Entries, (∀ p ∈ entries, ∀ path,
      p.2.blocks path = (p.2.blocks []).map (Block.under path)) →
      ∀ path, entriesBlocks path entries = (entriesBlocks [] entries).map (Block.under path) := by
    intro entries ih path
    rw [entriesBlocks_flatMap, entriesBlocks_flatMap, List.map_flatMap]
    refine List.flatMap_congr fun p hp => ?_
    rw [ih p hp (path ++ [p.1]), ih p hp ([] ++ [p.1]), List.map_map]
    simp [Function.comp_def, Block.under]
  induction member using induct generalizing path with
  | hexpr e => rfl
  | htable kind entries ih =>
    have := hentries entries ih path
    cases kind with
    | headed heading => rw [blocks, blocks, this]; simp [Block.under]
    | implied => rw [blocks, blocks, this]; simp [Block.under]
    | dotted => rw [blocks, blocks, this]
  | htables elements ih =>
    rw [blocks, blocks, elementBlocks_flatMap, elementBlocks_flatMap, List.map_flatMap]
    refine List.flatMap_congr fun element helement => ?_
    rw [hentries element.2 (ih element helement) path]
    simp [Block.under]

theorem entriesBlocks_eq (path : List Key) (entries : Entries) :
    entriesBlocks path entries =
      entries.flatMap fun p => (p.2.blocks []).map (Block.under (path ++ [p.1])) := by
  rw [entriesBlocks_flatMap]
  exact List.flatMap_congr fun p _ => blocks_eq _ _

def assignOps (body : List (List Key × Expr)) : List Op :=
  opsOf [] (body.map fun q => .assign (q.1.map Key.name) q.2.settledValue)

def deeds (member : Member) : List Deed :=
  (member.body []).map fun q => .assign (q.1.map Key.name) q.2.settledValue

def bodyOps (entries : Entries) : List Op := assignOps (entriesBody [] entries)

/-- The deeds of a block to the last name of its path; a block without heading and body is not
written. -/
def Block.own (block : Block) : List Deed :=
  if block.heading = none ∧ block.body = [] then []
  else .header (block.heading.isSome && block.array) :: (assignOps block.body).map insideOf

def Block.ops (block : Block) : List Op :=
  match block.path.map Key.name with
  | [] => []
  | x :: path => block.own.map fun deed => (x, .through path deed)

def Block.deeds (block : Block) : List Deed :=
  block.own.map (.through (block.path.map Key.name))

theorem settledShape_assigns (body : List (List Key × Expr)) :
    (body.map fun (path, e) => Statement.assign path e).map Statement.settledShape =
      body.map fun q => .assign (q.1.map Key.name) q.2.settledValue := by
  rw [List.map_map]
  rfl

theorem opsOf_assigns (current : List Text) (body : List (List Key × Expr)) (shapes : List Shape) :
    opsOf current (body.map (fun q => .assign (q.1.map Key.name) q.2.settledValue) ++ shapes) =
      (assignOps body).map (placed current) ++ opsOf current shapes := by
  induction body with
  | nil => rfl
  | cons q body ih =>
    obtain ⟨path, e⟩ := q
    cases path with
    | nil => exact ih
    | cons key path =>
      simp only [List.map_cons, List.cons_append, assignOps, opsOf] at ih ⊢
      rw [ih]
      rfl

theorem assignOps_append (as bs : List (List Key × Expr)) :
    assignOps (as ++ bs) = assignOps as ++ assignOps bs := by
  have := opsOf_assigns [] as (bs.map fun q => .assign (q.1.map Key.name) q.2.settledValue)
  rw [← List.map_append] at this
  rw [assignOps, this]
  have hplaced : placed [] = id := rfl
  rw [hplaced, List.map_id]
  rfl

theorem bodyOps_eq (entries : Entries) :
    bodyOps entries = entries.flatMap fun p => p.2.deeds.map fun deed => (p.1.name, deed) := by
  rw [bodyOps, entriesBody_eq]
  induction entries with
  | nil => rfl
  | cons p entries ih =>
    rw [List.flatMap_cons, assignOps_append, ih, List.flatMap_cons]
    congr 1
    rw [deeds, List.map_map]
    induction p.2.body [] with
    | nil => rfl
    | cons q body ih =>
      simp only [List.map_cons, List.nil_append, assignOps, opsOf] at ih ⊢
      rw [ih]
      rfl

theorem deeds_dotted (entries : Entries) :
    deeds (.table .dotted entries) = (bodyOps entries).map prolongOf := by
  rw [deeds, body, bodyOps_eq, entriesBody_eq, List.map_flatMap, List.map_flatMap]
  refine List.flatMap_congr fun p _ => ?_
  simp [deeds, Function.comp_def, prolongOf, Deed.prolong]

theorem isAssign_bodyOps {entries : Entries} : ∀ op ∈ bodyOps entries, op.2.IsAssign := by
  intro op hop
  rw [bodyOps_eq] at hop
  obtain ⟨p, -, hop⟩ := List.mem_flatMap.mp hop
  obtain ⟨deed, hdeed, rfl⟩ := List.mem_map.mp hop
  obtain ⟨q, -, rfl⟩ := List.mem_map.mp hdeed
  exact ⟨_, _, rfl⟩

theorem Block.own_under (path : List Key) (block : Block) : (block.under path).own = block.own := rfl

theorem Block.ops_under (key : Key) (block : Block) :
    (block.under [key]).ops = block.deeds.map fun deed => (key.name, deed) := by
  rw [Block.ops, Block.deeds, Block.own_under]
  simp [Block.under]

theorem Block.deeds_under (key : Key) (block : Block) :
    (block.under [key]).deeds = (block.under [key]).ops.map insideOf := by
  rw [Block.ops, Block.deeds, Block.own_under]
  simp [Block.under, Deed.through, insideOf]

theorem Block.own_eq_nil {block : Block} :
    block.own = [] ↔ block.heading = none ∧ block.body = [] := by
  unfold Block.own
  split <;> simp_all

theorem exists_under_of_mem {entries : Entries} {block : Block} (h : block ∈ entriesBlocks [] entries) :
    ∃ p ∈ entries, ∃ inner ∈ p.2.blocks [], block = Block.under [p.1] inner := by
  rw [entriesBlocks_eq] at h
  obtain ⟨p, hp, h⟩ := List.mem_flatMap.mp h
  obtain ⟨inner, hinner, rfl⟩ := List.mem_map.mp h
  exact ⟨p, hp, inner, hinner, rfl⟩

theorem opsOf_blockStatements (first : Bool) {blocks : List Block} (h : ∀ block ∈ blocks, block.path ≠ [])
    (current : List Text) :
    opsOf current ((Document.blockStatements first blocks).map Statement.settledShape) =
      blocks.flatMap Block.ops := by
  induction blocks generalizing first current with
  | nil => rfl
  | cons block blocks ih =>
    obtain ⟨hpath, hblocks⟩ := List.forall_mem_cons.mp h
    obtain ⟨key, path, hpath⟩ := List.exists_cons_of_ne_nil hpath
    have hassigns := settledShape_assigns block.body
    have hops : ∀ array, block.own = .header array :: (assignOps block.body).map insideOf →
        block.ops = (key.name, .through (path.map Key.name) (.header array)) ::
          (assignOps block.body).map (placed (key.name :: path.map Key.name)) := by
      intro array hown
      simp [Block.ops, hpath, hown, placed, Function.comp_def]
    rw [Document.blockStatements, List.flatMap_cons]
    cases hheading : block.heading with
    | some heading =>
      rw [hops block.array (by simp [Block.own, hheading])]
      simp only [List.map_cons, List.map_append, List.cons_append, hassigns, Statement.settledShape,
        hpath, opsOf]
      rw [opsOf_assigns, ih false hblocks]
    | none =>
      by_cases hbody : block.body = []
      · have hnil : block.ops = [] := by
          simp [Block.ops, Block.own_eq_nil.mpr ⟨hheading, hbody⟩, hpath]
        rw [hnil, List.nil_append]
        simp only [if_pos hbody]
        exact ih first hblocks current
      · rw [hops false (by simp [Block.own, hheading, hbody])]
        simp only [if_neg hbody, List.map_cons, List.map_append, List.cons_append, hassigns,
          Statement.settledShape, hpath, opsOf]
        rw [opsOf_assigns, ih false hblocks]

def endOf (last : Nat) (blocks : List Block) : Nat :=
  blocks.foldl (fun last block => (block.heading.map Heading.position).getD last) last

theorem positioned_append (last : Nat) (as bs : List Block) :
    Document.positioned last (as ++ bs) =
      Document.positioned last as ++ Document.positioned (endOf last as) bs := by
  induction as generalizing last with
  | nil => rfl
  | cons block as ih =>
    rw [List.cons_append, Document.positioned, Document.positioned, ih]
    rfl

theorem positioned_under (path : List Key) (last : Nat) (blocks : List Block) :
    Document.positioned last (blocks.map (Block.under path)) =
      (Document.positioned last blocks).map fun u => (u.1, u.2.under path) := by
  induction blocks generalizing last with
  | nil => rfl
  | cons block blocks ih =>
    rw [List.map_cons, Document.positioned, Document.positioned, ih]
    rfl

theorem mem_of_mem_positioned {last : Nat} {blocks : List Block} {u : Nat × Block}
    (h : u ∈ Document.positioned last blocks) : u.2 ∈ blocks := by
  induction blocks generalizing last with
  | nil => cases h
  | cons block blocks ih =>
    rw [Document.positioned] at h
    rcases List.mem_cons.mp h with rfl | h
    · exact List.mem_cons_self
    · exact List.mem_cons_of_mem _ (ih h)

def entriesUnits (held last : Nat) (entries : Entries) : List (Nat × List Op) :=
  (held, bodyOps entries) ::
    (Document.positioned last (entriesBlocks [] entries)).map fun u => (u.1, u.2.ops)

def units (held last : Nat) (member : Member) : List (Nat × List Deed) :=
  (held, member.deeds) :: (Document.positioned last (member.blocks [])).map fun u => (u.1, u.2.deeds)

theorem opsOf_statements (doc : Document) :
    opsOf [] (doc.statements.map Statement.settledShape) = schedule (entriesUnits 0 0 doc.root) := by
  have hpath : ∀ block ∈ Document.ordered doc.root, block.path ≠ [] := by
    intro block hblock
    obtain ⟨u, hu, rfl⟩ := List.mem_map.mp hblock
    obtain ⟨p, -, inner, -, hinner⟩ := exists_under_of_mem (mem_of_mem_positioned (mem_sort.mp hu))
    rw [hinner]
    simp [Block.under]
  rw [Document.statements, List.map_append, settledShape_assigns, opsOf_assigns,
    opsOf_blockStatements _ hpath,
    entriesUnits, schedule_cons]
  have hnone : ∀ us : List (Nat × List Op), us.filter (fun u => decide (u.1 < 0)) = [] := fun us =>
    List.filter_eq_nil_iff.mpr fun u _ => by simp
  have hall : ∀ us : List (Nat × List Op), us.filter (fun u => decide (0 ≤ u.1)) = us := fun us =>
    List.filter_eq_self.mpr fun u _ => by simp
  have hplaced : placed [] = id := rfl
  rw [hnone, hall, hplaced, List.map_id, schedule, schedule, byPosition_map (f := Block.ops),
    Document.ordered, List.flatMap_map, List.flatMap_map]
  rfl

theorem deedsAt_append (x : Text) (as bs : List Op) :
    deedsAt x (as ++ bs) = deedsAt x as ++ deedsAt x bs := List.filterMap_append

theorem deedsAt_self (x : Text) (deeds : List Deed) :
    deedsAt x (deeds.map fun deed => (x, deed)) = deeds := by
  simp [deedsAt, List.filterMap_map]

theorem deedsAt_other {x y : Text} (h : y ≠ x) (deeds : List Deed) :
    deedsAt x (deeds.map fun deed => (y, deed)) = [] := by
  simp [deedsAt, List.filterMap_map, h]

theorem deedsAt_bodyOps_other {entries : Entries} {x : Text} (h : ∀ p ∈ entries, p.1.name ≠ x) :
    deedsAt x (bodyOps entries) = [] := by
  rw [bodyOps_eq, deedsAt, List.filterMap_flatMap, List.flatMap_eq_nil_iff]
  exact fun p hp => deedsAt_other (h p hp) _

theorem deedsAt_ops_other {entries : Entries} {x : Text} (h : ∀ p ∈ entries, p.1.name ≠ x)
    {block : Block} (hblock : block ∈ entriesBlocks [] entries) : deedsAt x block.ops = [] := by
  obtain ⟨p, hp, inner, -, rfl⟩ := exists_under_of_mem hblock
  rw [Block.ops_under]
  exact deedsAt_other (h p hp) _

theorem bodyOps_append (as bs : Entries) : bodyOps (as ++ bs) = bodyOps as ++ bodyOps bs := by
  simp only [bodyOps_eq, List.flatMap_append]

theorem entriesBlocks_append (path : List Key) (as bs : Entries) :
    entriesBlocks path (as ++ bs) = entriesBlocks path as ++ entriesBlocks path bs := by
  simp only [entriesBlocks_flatMap, List.flatMap_append]

theorem entriesBlocks_cons (p : Key × Member) (entries : Entries) :
    entriesBlocks [] (p :: entries) =
      (p.2.blocks []).map (Block.under [p.1]) ++ entriesBlocks [] entries := by
  simp only [entriesBlocks_eq, List.flatMap_cons, List.nil_append]

/-- A name that no entry has gets no deeds. -/
theorem deedsAt_entriesUnits_other {entries : Entries} {x : Text} (h : x ∉ names entries)
    (held last : Nat) : deedsAt x (schedule (entriesUnits held last entries)) = [] := by
  have hother : ∀ p ∈ entries, p.1.name ≠ x := fun p hp e => h (mem_names.mpr ⟨p, hp, e⟩)
  rw [deedsAt, schedule_filterMap, schedule_eq_nil]
  intro u hu
  obtain ⟨v, hv, rfl⟩ := List.mem_map.mp hu
  rcases List.mem_cons.mp hv with rfl | hv
  · exact deedsAt_bodyOps_other hother
  · obtain ⟨w, hw, rfl⟩ := List.mem_map.mp hv
    exact deedsAt_ops_other hother (mem_of_mem_positioned hw)

theorem deedsAt_entriesUnits {front back : Entries} {p : Key × Member}
    (hnodup : (names (front ++ p :: back)).Nodup) (held last : Nat) :
    deedsAt p.1.name (schedule (entriesUnits held last (front ++ p :: back))) =
      schedule (p.2.units held (endOf last (entriesBlocks [] front))) := by
  have hnodup' := hnodup
  rw [names, List.map_append, List.map_cons, List.nodup_append, List.nodup_cons] at hnodup'
  obtain ⟨-, ⟨hback, -⟩, hfront⟩ := hnodup'
  have hfront : ∀ q ∈ front, q.1.name ≠ p.1.name := fun q hq =>
    hfront _ (List.mem_map_of_mem hq) _ List.mem_cons_self
  have hback : ∀ q ∈ back, q.1.name ≠ p.1.name := fun q hq e =>
    hback (e ▸ List.mem_map_of_mem (f := fun q : Key × Member => q.1.name) hq)
  -- blocks of other entries do nothing to the name, so they are filtered out
  have hidle : ∀ (part : Entries), (∀ q ∈ part, q.1.name ≠ p.1.name) → ∀ last,
      ((Document.positioned last (entriesBlocks [] part)).map fun u =>
        (u.1, deedsAt p.1.name u.2.ops)).filter (fun u => !u.2.isEmpty) = [] := by
    intro part hpart last
    rw [List.filter_eq_nil_iff]
    intro u hu
    obtain ⟨w, hw, rfl⟩ := List.mem_map.mp hu
    simp [deedsAt_ops_other hpart (mem_of_mem_positioned hw)]
  have hbody : deedsAt p.1.name (bodyOps (front ++ p :: back)) = p.2.deeds := by
    have hcons : bodyOps (p :: back) = (p.2.deeds.map fun deed => (p.1.name, deed)) ++ bodyOps back := by
      simp only [bodyOps_eq, List.flatMap_cons]
    rw [bodyOps_append, hcons, deedsAt_append, deedsAt_append, deedsAt_bodyOps_other hfront,
      deedsAt_bodyOps_other hback, deedsAt_self, List.nil_append, List.append_nil]
  have hmap : ((entriesUnits held last (front ++ p :: back)).map fun u =>
      (u.1, deedsAt p.1.name u.2)) = (held, p.2.deeds) ::
        (Document.positioned last (entriesBlocks [] (front ++ p :: back))).map fun u =>
          (u.1, deedsAt p.1.name u.2.ops) := by
    rw [entriesUnits, List.map_cons, hbody, List.map_map]
    rfl
  have hown : ((Document.positioned (endOf last (entriesBlocks [] front))
      ((p.2.blocks []).map (Block.under [p.1]))).map fun u => (u.1, deedsAt p.1.name u.2.ops)) =
        (Document.positioned (endOf last (entriesBlocks [] front)) (p.2.blocks [])).map fun u =>
          (u.1, u.2.deeds) := by
    rw [positioned_under, List.map_map]
    refine List.map_congr_left fun u _ => ?_
    rw [Function.comp_apply, Block.ops_under, deedsAt_self]
  rw [deedsAt, schedule_filterMap]
  change schedule ((entriesUnits held last (front ++ p :: back)).map fun u =>
    (u.1, deedsAt p.1.name u.2)) = _
  rw [hmap, entriesBlocks_append, entriesBlocks_cons, positioned_append, positioned_append,
    List.map_append, List.map_append, hown, ← schedule_filter, ← schedule_filter (units _ _ _), units,
    List.filter_cons, List.filter_append, List.filter_append, hidle front hfront, hidle back hback,
    List.nil_append, List.append_nil, List.filter_cons]

end Member

end DeploymentRecords.Toml
