import DeploymentRecords.Text.Basic

/-!
# Findings

What an audit finds: a record without an address, two records with different addresses, or a line
of the documentation that is still a placeholder.
-/

namespace DeploymentRecords

structure Subject where
  network : Text
  key : Text
  name : Text
  deriving DecidableEq, Repr

inductive Record where
  | deployments (file : Text)
  | source (path : Text)
  | documentation (header : Text)
  deriving DecidableEq, Repr

namespace Record

def against : Record → Text
  | documentation _ => "documentation".toList
  | _ => "RS".toList

/-- The name of a record in front of its value, as wide as the word for the deployment file. -/
def label : Record → Text
  | documentation _ => "DOCS".toList
  | _ => "RS  ".toList

end Record

inductive Finding where
  | absent (subject : Subject) (record : Record)
  | conflict (subject : Subject) (record : Record) (deployed other : Text)
  | placeholder (line : Text)
  deriving DecidableEq, Repr

namespace Finding

def isPlaceholder : Finding → Bool
  | placeholder _ => true
  | _ => false

def mark : Text := "❌".toList

def text : Finding → Text
  | absent subject (.deployments file) =>
    mark ++ " Missing [deployment.".toList ++ subject.network ++ "] ".toList ++ subject.key ++
      " in ".toList ++ file
  | absent subject (.source path) =>
    mark ++ " Missing [".toList ++ subject.network ++ "] ".toList ++ subject.name ++
      " in ".toList ++ path
  | absent subject (.documentation header) =>
    mark ++ " Missing [".toList ++ subject.network ++ "] ".toList ++ subject.name ++
      " in documentation section '".toList ++ header ++ "'".toList
  | conflict subject record deployed other =>
    mark ++ " Mismatch [".toList ++ subject.network ++ "] ".toList ++ subject.key ++
      " between TOML and ".toList ++ record.against ++ ":\n  TOML: ".toList ++ deployed ++
      "\n  ".toList ++ record.label ++ ": ".toList ++ other
  | placeholder line => "   ".toList ++ line

end Finding

end DeploymentRecords
