import DeploymentRecords.Proofs.RegularTree
import DeploymentRecords.Proofs.TreeOps

/-! # Passages

A document is written passage by passage: a header and the assignments below it. Opening a table adds
a passage and an assignment a line, as long as the keys on the way are spelt as they were. -/

namespace DeploymentRecords.Toml

open Member

def Key.face (key : Key) : Text × Text × Text × Text :=
  (key.name, key.spelling, key.before, key.after)

inductive Line where
  | header (path : List Text) (text : Text)
  | assign (path : List Text) (front : Text) (e : Expr)

def Line.text : Line → Text
  | .header _ text => text
  | .assign _ front e => front ++ '=' :: e.text Expr.spaced ++ ['\n']

def Statement.line : Statement → Line
  | .header array path around =>
    .header (path.map Key.name) (Statement.header array path around).text
  | .assign path e => .assign (path.map Key.name) (Key.pathText newKey path) e

theorem Statement.text_line (st : Statement) : st.line.text = st.text := by
  cases st <;> rfl

def assignLine (assign : List Key × Expr) : Line := (Statement.assign assign.1 assign.2).line

theorem map_line_assigns (body : List (List Key × Expr)) :
    (body.map fun (path, e) => Statement.assign path e).map Statement.line = body.map assignLine :=
  List.map_map

namespace Key

variable {front front' : List Key}

theorem joined_congr (h : front.map face = front'.map face) (key : Key) :
    joined (front ++ [key]) = joined (front' ++ [key]) := by
  induction front generalizing front' with
  | nil => rw [List.map_eq_nil_iff.mp h.symm]
  | cons k front ih =>
    cases front' with
    | nil => cases h
    | cons k' front' =>
      obtain ⟨hk, hfront⟩ := List.cons.inj h
      have hjoined := ih hfront
      simp only [face, Prod.mk.injEq] at hk
      obtain ⟨-, hspelling, -, hafter⟩ := hk
      cases front with
      | nil =>
        obtain rfl := List.map_eq_nil_iff.mp hfront.symm
        simp only [List.cons_append, List.nil_append, joined_cons_cons, hspelling, hafter]
      | cons next front =>
        cases front' with
        | nil => cases hfront
        | cons next' front' =>
          have hbefore : next.before = next'.before :=
            congrArg (fun f : Text × Text × Text × Text => f.2.2.1) (List.cons.inj hfront).1
          rw [List.cons_append, List.cons_append] at hjoined ⊢
          rw [List.cons_append, List.cons_append, joined_cons_cons, joined_cons_cons, hjoined,
            hspelling, hafter, hbefore]

theorem pathText_congr (h : front.map face = front'.map face) (default : Surround) (key : Key) :
    pathText default (front ++ [key]) = pathText default (front' ++ [key]) := by
  rw [pathText, pathText, joined_congr h, List.getLast?_concat, List.getLast?_concat]

theorem names_congr (h : front.map face = front'.map face) : front.map name = front'.map name := by
  have := congrArg (List.map Prod.fst) h
  simpa [face, Function.comp_def] using this

end Key

namespace Statement

variable {front front' path : List Key}

theorem line_header_congr (h : front.map Key.face = front'.map Key.face) (hpath : path ≠ [])
    (array : Bool) (around : Surround) : (Statement.header array (front ++ path) around).line =
      (Statement.header array (front' ++ path) around).line := by
  obtain ⟨init, key, rfl⟩ := (List.eq_nil_or_concat path).resolve_left hpath
  have hfront : (front ++ init).map Key.face = (front' ++ init).map Key.face := by
    rw [List.map_append, List.map_append, h]
  have hnames := Key.names_congr hfront
  rw [List.concat_eq_append, ← List.append_assoc, ← List.append_assoc, line, line, List.map_append,
    hnames, ← List.map_append]
  cases array <;> rw [text, text, Key.pathText_congr hfront]

theorem line_assign_congr (h : front.map Key.face = front'.map Key.face) (hpath : path ≠ [])
    (e : Expr) : (Statement.assign (front ++ path) e).line = (Statement.assign (front' ++ path) e).line := by
  obtain ⟨init, key, rfl⟩ := (List.eq_nil_or_concat path).resolve_left hpath
  have hfront : (front ++ init).map Key.face = (front' ++ init).map Key.face := by
    rw [List.map_append, List.map_append, h]
  have hnames := Key.names_congr hfront
  rw [List.concat_eq_append, ← List.append_assoc, ← List.append_assoc, line, line, List.map_append,
    hnames, ← List.map_append, Key.pathText_congr hfront]

end Statement

namespace Member

/-- What is written for a block, at the position of its header. -/
def Block.passage? (block : Block) : Option (Nat × List Line) :=
  match block.heading with
  | some heading => some (heading.position,
      (Statement.header block.array block.path heading.around).line :: block.body.map assignLine)
  | none => if block.body = [] then none else some (0, block.body.map assignLine)

def passages (path : List Key) (member : Member) : List (Nat × List Line) :=
  (member.blocks path).filterMap Block.passage?

def entriesPassages (path : List Key) (entries : Entries) : List (Nat × List Line) :=
  (entriesBlocks path entries).filterMap Block.passage?

def ownPassage (path : List Key) (body : List (List Key × Expr)) : TableKind → List (Nat × List Line)
  | .headed heading =>
    [(heading.position, (Statement.header false path heading.around).line :: body.map assignLine)]
  | .implied => if body = [] then [] else [(0, body.map assignLine)]
  | .dotted => []

variable {path front front' : List Key} {entries sub : Entries} {key : Key} {heading : Heading}

@[simp] theorem entriesPassages_nil : entriesPassages path [] = [] := rfl

theorem entriesPassages_append (as bs : Entries) :
    entriesPassages path (as ++ bs) = entriesPassages path as ++ entriesPassages path bs := by
  rw [entriesPassages, entriesBlocks_append, List.filterMap_append]
  rfl

theorem entriesPassages_cons (key : Key) (member : Member) (entries : Entries) :
    entriesPassages path ((key, member) :: entries) =
      member.passages (path ++ [key]) ++ entriesPassages path entries := by
  rw [entriesPassages, entriesBlocks, List.filterMap_append]
  rfl

theorem passages_table (kind : TableKind) : (Member.table kind sub).passages path =
    ownPassage path (entriesBody [] sub) kind ++ entriesPassages path sub := by
  cases kind with
  | headed heading => rw [passages, blocks]; rfl
  | implied =>
    rw [passages, blocks, ownPassage]
    by_cases hbody : entriesBody [] sub = []
    · rw [List.filterMap_cons_none (by simp [Block.passage?, hbody]), if_pos hbody]
      rfl
    · rw [List.filterMap_cons_some (b := (0, (entriesBody [] sub).map assignLine))
        (by simp [Block.passage?, hbody]), if_neg hbody]
      rfl
  | dotted => rw [passages, blocks]; rfl

theorem passages_tables (elements : List (Heading × Entries)) :
    (Member.tables (elements ++ [(heading, sub)])).passages path = (Member.tables elements).passages path ++
      (heading.position, (Statement.header true path heading.around).line ::
        (entriesBody [] sub).map assignLine) :: entriesPassages path sub := by
  rw [passages, passages, blocks, blocks, elementBlocks_flatMap, elementBlocks_flatMap,
    List.flatMap_append, List.filterMap_append, List.flatMap_singleton]
  rfl

theorem entriesPassages_congr (h : front.map Key.face = front'.map Key.face) :
    entriesPassages front entries = entriesPassages front' entries := by
  have hblock : ∀ (path : List Key) (block : Block), path ≠ [] →
      Block.passage? { block with path := front ++ path } = Block.passage? { block with path := front' ++ path } := by
    intro path block hpath
    simp only [Block.passage?, Statement.line_header_congr h hpath]
  rw [entriesPassages, entriesPassages, entriesBlocks_eq, entriesBlocks_eq, List.filterMap_flatMap,
    List.filterMap_flatMap]
  refine List.flatMap_congr fun p _ => ?_
  rw [List.filterMap_map, List.filterMap_map]
  refine List.filterMap_congr fun block _ => ?_
  have := hblock (p.1 :: block.path) block (by simp)
  simpa [Block.under] using this

theorem body_table (kind : TableKind) {new : Entries}
    (h : ∀ path, entriesBody path new = entriesBody path sub) (path : List Key) :
    (Member.table kind new).body path = (Member.table kind sub).body path := by
  cases kind with
  | headed heading => rfl
  | implied => rfl
  | dotted => rw [body, body, h]

end Member

theorem perm_middle {α : Type} {as m m' bs xs : List α} (h : m'.Perm (m ++ xs)) :
    (as ++ (m' ++ bs)).Perm (as ++ (m ++ bs) ++ xs) := by
  have hend : (m ++ xs ++ bs).Perm (m ++ bs ++ xs) := by
    rw [List.append_assoc, List.append_assoc]
    exact List.perm_append_comm.append_left m
  rw [List.append_assoc]
  exact ((h.append_right bs).trans hend).append_left as

namespace Entries

variable {entries as bs : Entries} {name : Text} {key : Key} {member new : Member}

theorem passages_concat (front : List Key) (entries : Entries) (key : Key) (member : Member) :
    entriesPassages front (entries ++ [(key, member)]) =
      entriesPassages front entries ++ member.passages (front ++ [key]) := by
  rw [entriesPassages_append, entriesPassages_cons, entriesPassages_nil, List.append_nil]

theorem body_concat (path : List Key) (entries : Entries) (key : Key) (member : Member) :
    entriesBody path (entries ++ [(key, member)]) =
      entriesBody path entries ++ member.body (path ++ [key]) := by
  rw [entriesBody_flatMap, entriesBody_flatMap, List.flatMap_append, List.flatMap_singleton]

theorem get?_concat (h : key.name ∉ names entries) :
    (entries ++ [(key, member)]).get? key.name = some member := by
  rw [get?_append, get?_eq_none_iff.mpr h, get?_cons, if_pos rfl]
  rfl

structure Split (entries : Entries) (name : Text) (key : Key) (member : Member) (as bs : Entries) : Prop where
  split : entries = as ++ (key, member) :: bs
  key_name : key.name = name
  replace : ∀ new, entries.replace name new = as ++ (key, new) :: bs
  erase : entries.erase name = as ++ bs

theorem exists_split (hnodup : (names entries).Nodup)
    (hfind : entries.find? (fun p => p.1.name = name) = some (key, member)) :
    ∃ as bs, Split entries name key member as bs := by
  have hname : key.name = name := by simpa using List.find?_some hfind
  obtain ⟨as, bs, rfl⟩ := List.append_of_mem (List.mem_of_find?_eq_some hfind)
  rw [names, List.map_append, List.map_cons, List.nodup_append, List.nodup_cons] at hnodup
  obtain ⟨-, ⟨hbs, -⟩, has⟩ := hnodup
  have has : name ∉ names as := fun hm => has _ hm _ (by rw [hname]; exact List.mem_cons_self) rfl
  have hbs : name ∉ names bs := hname ▸ hbs
  refine ⟨as, bs, rfl, hname, fun new => ?_, ?_⟩
  · rw [replace, List.map_append, replace_fresh has, List.map_cons, replace_fresh hbs]
    simp only [hname, if_true]
  · have hall : ∀ cs : Entries, name ∉ names cs → cs.filter (fun p => p.1.name ≠ name) = cs := by
      intro cs hcs
      refine List.filter_eq_self.mpr fun p hp => ?_
      simpa using fun e => hcs (mem_names.mpr ⟨p, hp, e⟩)
    rw [erase, List.filter_append, hall as has, List.filter_cons_of_neg (by simp [hname]), hall bs hbs]

theorem exists_split_of_get? (hnodup : (names entries).Nodup) (hget : entries.get? name = some member) :
    ∃ key as bs, entries.find? (fun p => p.1.name = name) = some (key, member) ∧
      Split entries name key member as bs := by
  obtain ⟨⟨key, _⟩, hfind, rfl⟩ := Option.map_eq_some_iff.mp hget
  obtain ⟨as, bs, hsplit⟩ := exists_split hnodup hfind
  exact ⟨key, as, bs, hfind, hsplit⟩

namespace Split

theorem get? (h : Split entries name key member as bs) (new : Member) :
    (entries.replace name new).get? name = some new := by
  have hthere : entries.get? name ≠ none := by
    rw [ne_eq, get?_eq_none_iff, not_not, ← h.key_name, h.split]
    exact mem_names.mpr ⟨(key, member), by simp, rfl⟩
  obtain ⟨old, hold⟩ := Option.ne_none_iff_exists'.mp hthere
  rw [get?_replace, if_pos rfl, hold]
  rfl

theorem passages (h : Split entries name key member as bs) (front : List Key) :
    entriesPassages front entries = entriesPassages front as ++
      (member.passages (front ++ [key]) ++ entriesPassages front bs) := by
  rw [h.split, entriesPassages_append, entriesPassages_cons]

theorem passages_replace (h : Split entries name key member as bs) (front : List Key) (new : Member) :
    entriesPassages front (entries.replace name new) = entriesPassages front as ++
      (new.passages (front ++ [key]) ++ entriesPassages front bs) := by
  rw [h.replace, entriesPassages_append, entriesPassages_cons]

theorem passages_erase (h : Split entries name key member as bs) (front : List Key) :
    entriesPassages front (entries.erase name) = entriesPassages front as ++ entriesPassages front bs := by
  rw [h.erase, entriesPassages_append]

/-- A body sees an entry only in what the entry adds to it. -/
theorem body_replace (h : Split entries name key member as bs)
    (hbody : ∀ path, new.body path = member.body path) (path : List Key) :
    entriesBody path (entries.replace name new) = entriesBody path entries := by
  rw [h.replace, h.split, entriesBody_flatMap, entriesBody_flatMap, List.flatMap_append,
    List.flatMap_append, List.flatMap_cons, List.flatMap_cons, hbody]

theorem body_erase (h : Split entries name key member as bs) (hbody : ∀ path, member.body path = [])
    (path : List Key) : entriesBody path (entries.erase name) = entriesBody path entries := by
  rw [h.erase, h.split, entriesBody_flatMap, entriesBody_flatMap, List.flatMap_append,
    List.flatMap_append, List.flatMap_cons, hbody, List.nil_append]

end Split

end Entries

end DeploymentRecords.Toml
