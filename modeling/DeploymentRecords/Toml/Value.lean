import DeploymentRecords.Sorting
import DeploymentRecords.Toml.Key
import DeploymentRecords.Toml.Scalar

/-!
# Values

What a document means once layout is forgotten. A table whose first key is the box key stands
for a date-time; `Value.unboxed?` opens such boxes and puts the entries of every table into key
order.
-/

namespace DeploymentRecords.Toml

inductive Value where
  | scalar (s : Scalar)
  | array (elements : List Value)
  | table (entries : List (Text × Value))

namespace Value

def string (s : Text) : Value := .scalar (.string s)

def kind : Value → Text
  | .scalar (.string _) => "string".toList
  | .scalar (.integer _) => "integer".toList
  | .scalar (.float _) => "float".toList
  | .scalar (.boolean _) => "boolean".toList
  | .scalar (.datetime _) => "datetime".toList
  | .array _ => "array".toList
  | .table _ => "table".toList

def asString? : Value → Option Text
  | .scalar (.string s) => some s
  | _ => none

def asTable? : Value → Option (List (Text × Value))
  | .table entries => some entries
  | _ => none

theorem asTable?_eq_some_iff {v : Value} {entries : List (Text × Value)} :
    v.asTable? = some entries ↔ v = .table entries := by
  cases v <;> simp [asTable?]

def sortEntries (entries : List (Text × Value)) : List (Text × Value) :=
  Sorting.sort (fun a b => a.1 < b.1) entries

/-- The key of the only entry that counts in a boxed date-time. -/
def boxKey : Text := "$__toml_private_datetime".toList

def boxed? : List (Text × Value) → Option Value
  | (key, v) :: _ => if key = boxKey then some v else none
  | [] => none

mutual

def unboxed? : Value → Option Value
  | .scalar s => some (.scalar s)
  | .array elements => (unboxedAll? elements).map .array
  | .table entries =>
    match boxed? entries with
    | some (.scalar (.string s)) =>
      (Datetime.ofText? s).map fun d => .scalar (.datetime d)
    | some _ => none
    | none => (unboxedEntries? entries).map fun entries => .table (sortEntries entries)

def unboxedAll? : List Value → Option (List Value)
  | [] => some []
  | v :: vs =>
    match unboxed? v, unboxedAll? vs with
    | some v, some vs => some (v :: vs)
    | _, _ => none

def unboxedEntries? : List (Text × Value) → Option (List (Text × Value))
  | [] => some []
  | (key, v) :: entries =>
    match unboxed? v, unboxedEntries? entries with
    | some v, some entries => some ((key, v) :: entries)
    | _, _ => none

end

mutual

def inlineText : Value → Text
  | .scalar s => s.text
  | .array elements => '[' :: elementsText elements ++ [']']
  | .table [] => ['{', '}']
  | .table entries => '{' :: ' ' :: entriesText entries ++ [' ', '}']

def elementsText : List Value → Text
  | [] => []
  | [v] => inlineText v
  | v :: vs => inlineText v ++ ',' :: ' ' :: elementsText vs

def entriesText : List (Text × Value) → Text
  | [] => []
  | [(key, v)] => Key.quote key ++ ' ' :: '=' :: ' ' :: inlineText v
  | (key, v) :: entries =>
    Key.quote key ++ ' ' :: '=' :: ' ' :: inlineText v ++ ',' :: ' ' :: entriesText entries

end

/-- How a value is shown on its own: a string as it is, a date-time in its box, anything else as
inside an array. -/
def text : Value → Text
  | .scalar (.string s) => s
  | .scalar (.datetime d) => inlineText (.table [(boxKey, string d.text)])
  | v => inlineText v

end Value

end DeploymentRecords.Toml
