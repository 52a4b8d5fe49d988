import DeploymentRecords.Toml.Expr

/-!
# Tables

The tree that the headers and keys of a document spell out. A table is written under a header of
its own, implied by a longer header, or spread over dotted keys. `Entries.reach?` follows a path
to a table; the rules on what may be defined twice are in the functions that add to it.
-/

namespace DeploymentRecords.Toml

structure Heading where
  around : Surround
  position : Nat
  deriving DecidableEq, Repr

inductive TableKind where
  | headed (heading : Heading)
  | implied
  | dotted
  deriving DecidableEq, Repr

inductive Member where
  | expr (e : Expr)
  | table (kind : TableKind) (entries : List (Key × Member))
  | tables (elements : List (Heading × List (Key × Member)))

abbrev Entries := List (Key × Member)

namespace Entries

def get? (name : Text) (entries : Entries) : Option Member :=
  (entries.find? (·.1.name = name)).map (·.2)

/-- The entries with another member under a name that is there; its key stays as it is spelt. -/
def replace (name : Text) (member : Member) (entries : Entries) : Entries :=
  entries.map fun (key, old) => if key.name = name then (key, member) else (key, old)

def erase (name : Text) (entries : Entries) : Entries := entries.filter (·.1.name ≠ name)

/-- Changes the table that a path leads to, the last one where it meets an array of tables. Tables
that are not there are implied. -/
def reach? (change : Entries → Option Entries) : List Key → Entries → Option Entries
  | [], entries => change entries
  | key :: path, entries =>
    match entries.get? key.name with
    | none => (reach? change path []).map fun sub => entries ++ [(key, .table .implied sub)]
    | some (.table kind sub) =>
      (reach? change path sub).map fun sub => entries.replace key.name (.table kind sub)
    | some (.tables elements) =>
      match elements.getLast? with
      | none => none
      | some (heading, sub) =>
        (reach? change path sub).map fun sub =>
          entries.replace key.name (.tables (elements.dropLast ++ [(heading, sub)]))
    | some (.expr _) => none

/-- Opens a table under a header. An implied table is completed, and moves behind its neighbours;
any other entry of the name is in the way. -/
def openTable? (heading : Heading) (key : Key) (entries : Entries) : Option Entries :=
  match entries.get? key.name with
  | none => some (entries ++ [(key, .table (.headed heading) [])])
  | some (.table .implied sub) =>
    some (entries.erase key.name ++ [(key, .table (.headed heading) sub)])
  | some _ => none

def openElement? (heading : Heading) (key : Key) (entries : Entries) : Option Entries :=
  match entries.get? key.name with
  | none => some (entries ++ [(key, .tables [(heading, [])])])
  | some (.tables elements) => some (entries.replace key.name (.tables (elements ++ [(heading, [])])))
  | some _ => none

/-- Adds the value of a path; keys in the middle of a path lead to dotted tables. The path may
pass through implied tables and arrays of tables, but the value itself can be added only where
`direct` says so: to the table of the current header and to dotted tables. -/
def assign? (direct : Bool) : List Key → Expr → Entries → Option Entries
  | [], _, _ => none
  | [key], e, entries =>
    if direct ∧ (entries.get? key.name).isNone then some (entries ++ [(key, .expr e)]) else none
  | key :: path, e, entries =>
    match entries.get? key.name with
    | none => (assign? true path e []).map fun sub => entries ++ [(key, .table .dotted sub)]
    | some (.table .dotted sub) =>
      (assign? true path e sub).map fun sub => entries.replace key.name (.table .dotted sub)
    | some (.table .implied sub) =>
      (assign? false path e sub).map fun sub => entries.replace key.name (.table .implied sub)
    | some (.tables elements) =>
      match elements.getLast? with
      | none => none
      | some (heading, sub) =>
        (assign? false path e sub).map fun sub =>
          entries.replace key.name (.tables (elements.dropLast ++ [(heading, sub)]))
    | some _ => none

end Entries

namespace Member

mutual

def value : Member → Value
  | .expr e => e.value
  | .table _ entries => .table (entryValues entries)
  | .tables elements => .array (elementValues elements)

def entryValues : List (Key × Member) → List (Text × Value)
  | [] => []
  | (key, member) :: entries => (key.name, member.value) :: entryValues entries

def elementValues : List (Heading × List (Key × Member)) → List Value
  | [] => []
  | (_, entries) :: elements => .table (entryValues entries) :: elementValues elements

end

mutual

/-- The assignments that a member at `path` adds to the body of the table around it: a value is
one, a dotted table stands for its own. -/
def body (path : List Key) : Member → List (List Key × Expr)
  | .expr e => [(path, e)]
  | .table .dotted entries => entriesBody path entries
  | _ => []

def entriesBody (path : List Key) : List (Key × Member) → List (List Key × Expr)
  | [] => []
  | (key, member) :: entries => member.body (path ++ [key]) ++ entriesBody path entries

end

/-- A table that may need a header: its path, its heading unless it is implied, and its body. -/
structure Block where
  array : Bool
  path : List Key
  heading : Option Heading
  body : List (List Key × Expr)

mutual

def blocks (path : List Key) : Member → List Block
  | .expr _ => []
  | .table .dotted entries => entriesBlocks path entries
  | .table .implied entries => ⟨false, path, none, entriesBody [] entries⟩ :: entriesBlocks path entries
  | .table (.headed heading) entries =>
    ⟨false, path, some heading, entriesBody [] entries⟩ :: entriesBlocks path entries
  | .tables elements => elementBlocks path elements

def entriesBlocks (path : List Key) : List (Key × Member) → List Block
  | [] => []
  | (key, member) :: entries => member.blocks (path ++ [key]) ++ entriesBlocks path entries

def elementBlocks (path : List Key) : List (Heading × List (Key × Member)) → List Block
  | [] => []
  | (heading, entries) :: elements =>
    ⟨true, path, some heading, entriesBody [] entries⟩ :: entriesBlocks path entries ++
      elementBlocks path elements

end

end Member

end DeploymentRecords.Toml
