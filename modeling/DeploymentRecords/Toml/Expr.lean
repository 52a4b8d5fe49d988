import DeploymentRecords.Toml.Key
import DeploymentRecords.Toml.Value

/-!
# Expressions

An expression is the right side of an assignment as it is written: `Expr.value` is what it means,
`Expr.text` how it looks. Keys of an inline table that share the front of their paths are kept
together in a table marked as dotted, which has no braces of its own.
-/

namespace DeploymentRecords.Toml

inductive Expr where
  | scalar (value : Scalar) (spelling : Text) (around : Option Surround)
  | array (elements : List Expr) (comma : Bool) (trail : Text) (around : Option Surround)
  | table (entries : List (Key × Expr)) (dotted : Bool) (lead : Text) (around : Option Surround)

namespace Expr

def around : Expr → Option Surround
  | .scalar _ _ around => around
  | .array _ _ _ around => around
  | .table _ _ _ around => around

def within (around : Option Surround) : Expr → Expr
  | .scalar value spelling _ => .scalar value spelling around
  | .array elements comma trail _ => .array elements comma trail around
  | .table entries dotted lead _ => .table entries dotted lead around

def string (s : Text) (around : Option Surround) : Expr := .scalar (.string s) (quote s) around

mutual

def value : Expr → Value
  | .scalar value _ _ => .scalar value
  | .array elements _ _ _ => .array (elementValues elements)
  | .table entries _ _ _ => .table (entryValues entries)

def elementValues : List Expr → List Value
  | [] => []
  | e :: es => e.value :: elementValues es

def entryValues : List (Key × Expr) → List (Text × Value)
  | [] => []
  | (key, e) :: entries => (key.name, e.value) :: entryValues entries

end

def spaced : Surround := ⟨[' '], []⟩
def bare : Surround := ⟨[], []⟩
def padded : Surround := ⟨[' '], [' ']⟩

def joinPairs : List (List Key × (Surround → Text)) → Text
  | [] => []
  | [(path, e)] => Key.pathText padded path ++ '=' :: e padded
  | (path, e) :: pairs => Key.pathText padded path ++ '=' :: e spaced ++ ',' :: joinPairs pairs

mutual

def text : Expr → Surround → Text
  | .scalar _ spelling around, default =>
    let a := around.getD default
    a.before ++ spelling ++ a.after
  | .array elements comma trail around, default =>
    let a := around.getD default
    a.before ++ '[' :: elementsText bare elements ++
      (if comma then [','] else []) ++ trail ++ ']' :: a.after
  | .table entries _ lead around, default =>
    let a := around.getD default
    a.before ++ '{' :: lead ++ joinPairs (pairs [] entries) ++ '}' :: a.after

def elementsText (default : Surround) : List Expr → Text
  | [] => []
  | [e] => e.text default
  | e :: es => e.text default ++ ',' :: elementsText spaced es

def pairs (path : List Key) : List (Key × Expr) → List (List Key × (Surround → Text))
  | [] => []
  | (key, .table entries true _ _) :: rest =>
    pairs (path ++ [key]) entries ++ pairs path rest
  | (key, e) :: rest => (path ++ [key], e.text) :: pairs path rest

end

end Expr

end DeploymentRecords.Toml
