import DeploymentRecords.Toml.Document

/-!
# Editing

Writing strings into a table of a document without touching the layout of anything else. A value
that is replaced hands on what surrounds it; a new key goes behind the others.
-/

namespace DeploymentRecords.Toml

namespace Expr

def set (entries : List (Key × Expr)) (name s : Text) : List (Key × Expr) :=
  if entries.any (·.1.name = name) then
    entries.map fun (key, old) => if key.name = name then (key, .string s old.around) else (key, old)
  else entries ++ [(Key.new name, .string s none)]

def update? (fields : List (Text × Text)) : List Text → Expr → Option Expr
  | [], .table entries dotted lead around =>
    some (.table (fields.foldl (fun entries (name, s) => set entries name s) entries) dotted lead around)
  | name :: path, .table entries dotted lead around =>
    match entries.find? (·.1.name = name) with
    | none => none
    | some (_, e) => (e.update? fields path).map fun new =>
      .table (entries.map fun (key, old) => if key.name = name then (key, new) else (key, old))
        dotted lead around
  | _, _ => none

end Expr

def Member.around : Member → Option Surround
  | .expr e => e.around
  | _ => none

namespace Entries

def set (entries : Entries) (name s : Text) : Entries :=
  match entries.get? name with
  | some old => entries.replace name (.expr (.string s old.around))
  | none => entries ++ [(Key.new name, .expr (.string s none))]

end Entries

def Member.update? (fields : List (Text × Text)) : List Text → Member → Option Member
  | path, .expr e => (e.update? fields path).map .expr
  | [], .table kind entries =>
    some (.table kind (fields.foldl (fun entries (name, s) => Entries.set entries name s) entries))
  | name :: path, .table kind entries =>
    match Entries.get? name entries with
    | none => none
    | some member => (member.update? fields path).map fun new =>
      .table kind (Entries.replace name new entries)
  | _, .tables _ => none

def Document.update? (doc : Document) (table : Text) (path : List Text)
    (fields : List (Text × Text)) : Option Document :=
  match doc.root.get? table with
  | none => none
  | some member => (member.update? fields path).map fun new =>
    { doc with root := doc.root.replace table new }

end DeploymentRecords.Toml
