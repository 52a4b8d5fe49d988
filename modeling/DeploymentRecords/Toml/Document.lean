import DeploymentRecords.Toml.Statement
import DeploymentRecords.Toml.Table

/-!
# Documents

A document is the tree of its tables together with its layout. `Document.read?` builds it from
the statements of a text, `Document.statements` lists it again: tables by the positions of their
headers, each with its assignments in the order of the tree, and an implied table that has got
values of its own directly behind the table before it.
-/

namespace DeploymentRecords.Toml

structure Document where
  root : Entries
  trail : Text

namespace Document

/-- A document under construction: its tree, the table that assignments go to, and the number of
headers so far. -/
structure Draft where
  root : Entries
  current : List Key
  headers : Nat

def Draft.empty : Draft := ⟨[], [], 0⟩

def Draft.add? (draft : Draft) : Statement → Option Draft
  | .header array path around =>
    match path.getLast? with
    | none => none
    | some key =>
      let heading : Heading := ⟨around, draft.headers + 1⟩
      let add := if array then Entries.openElement? heading key else Entries.openTable? heading key
      (Entries.reach? add path.dropLast draft.root).map fun root =>
        ⟨root, path, draft.headers + 1⟩
  | .assign path e =>
    (Entries.reach? (Entries.assign? true path e) draft.current draft.root).map fun root =>
      { draft with root }

def ofStatements? (statements : List Statement) : Option Entries :=
  (statements.foldlM Draft.add? Draft.empty).map (·.root)

def dropMark : Text → Text
  | '\uFEFF' :: s => s
  | s => s

def read? (s : Text) : Option Document :=
  match Statement.readAll? (dropMark s) with
  | some (statements, trail) => (ofStatements? statements).map fun root => ⟨root, trail⟩
  | none => none

/-- Each block with its position; a block without a heading has the position before it. -/
def positioned (last : Nat) : List Member.Block → List (Nat × Member.Block)
  | [] => []
  | block :: blocks =>
    let position := (block.heading.map Heading.position).getD last
    (position, block) :: positioned position blocks

def ordered (entries : Entries) : List Member.Block :=
  (Sorting.sort (fun a b => a.1 < b.1) (positioned 0 (Member.entriesBlocks [] entries))).map (·.2)

/-- The statements of blocks; an implied table has a header only if it has a body, with an empty
line above it unless it is the `first`. -/
def blockStatements (first : Bool) : List Member.Block → List Statement
  | [] => []
  | block :: blocks =>
    let assigns := block.body.map fun (path, e) => Statement.assign path e
    match block.heading with
    | some heading =>
      .header block.array block.path heading.around :: assigns ++ blockStatements false blocks
    | none =>
      if block.body = [] then blockStatements first blocks
      else
        .header false block.path ⟨if first then [] else ['\n'], []⟩ :: assigns ++
          blockStatements false blocks

def statements (doc : Document) : List Statement :=
  let body := Member.entriesBody [] doc.root
  body.map (fun (path, e) => .assign path e) ++ blockStatements body.isEmpty (ordered doc.root)

def text (doc : Document) : Text := doc.statements.flatMap Statement.text ++ doc.trail

def entries (doc : Document) : List (Text × Value) := Member.entryValues doc.root

end Document

end DeploymentRecords.Toml
