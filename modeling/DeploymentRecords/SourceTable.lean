import DeploymentRecords.Address
import DeploymentRecords.Text.Blank
import DeploymentRecords.Text.Case
import DeploymentRecords.Text.Word

/-!
# Addresses in source files

A source file holds constants of the form `pub const NAME: Deployment = Deployment { … };`. The
block of a constant runs to the first `};` behind its head. In a block every longest word that
ends in `_address`, with a colon behind it and a comma behind that, is a field; its value is what
stands between the two.
-/

namespace DeploymentRecords.SourceTable

def skipBlanks (s : Text) : Text := s.dropWhile Text.isBlank

def afterTokens? : List Text → Text → Option Text
  | [], s => some s
  | token :: tokens, s => (Text.after? token (skipBlanks s)).bind (afterTokens? tokens)

/-- What follows the head of a constant, whose name stands one space behind `pub const`. -/
def afterHead? (constant s : Text) : Option Text :=
  (Text.after? ("pub const ".toList ++ constant) s).bind
    (afterTokens? [":".toList, "Deployment".toList, "=".toList, "Deployment".toList, "\x7b".toList])

def block? (content constant : Text) : Option Text :=
  match Text.search? (afterHead? (Text.upper constant)) content with
  | none => none
  | some rest => (Text.cut? "\x7d;".toList rest).map (·.1)

def fieldSuffix : Text := "_address".toList

def isFieldName (name : Text) : Bool := fieldSuffix.length < name.length && fieldSuffix.isSuffixOf name

def readValue? (s : Text) : Option (Text × Text) :=
  match skipBlanks s with
  | ':' :: s =>
    match Text.cut? [','] s with
    | some ([], _) => none
    | found => found
  | _ => none

def fields (s : Text) : List (Text × Text) :=
  match _h : s.dropWhile (fun c => !Text.isWord c) with
  | [] => []
  | c :: start =>
    let name := (c :: start).takeWhile Text.isWord
    let rest := start.dropWhile Text.isWord
    if isFieldName name then
      match readValue? rest with
      | some (value, next) =>
        if _h : next.length < s.length then (name, value) :: fields next else []
      | none => fields rest
    else fields rest
termination_by s.length
decreasing_by
  · assumption
  all_goals
    have := Text.length_dropWhile_le (fun c => !Text.isWord c) s
    have := Text.length_dropWhile_le Text.isWord start
    simp_all
    omega

def readMacro? (s : Text) : Option Text :=
  match (Text.after? "address!(".toList s).bind (afterTokens? [['"']]) with
  | none => none
  | some s =>
    match Address.read? s with
    | none => none
    | some (address, s) => (Text.after? ['"'] s).bind fun s =>
      (afterTokens? [[')']] s).map fun _ => address

def addressIn (value : Text) : Text :=
  let value := Text.trim value
  if value = "None".toList then [] else (Text.search? readMacro? value).getD []

def read (content constant : Text) : AddressTable :=
  match block? content constant with
  | none => []
  | some block => AddressTable.ofList ((fields block).map fun (name, value) => (name, addressIn value))

end DeploymentRecords.SourceTable
