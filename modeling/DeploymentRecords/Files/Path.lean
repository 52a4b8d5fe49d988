import DeploymentRecords.Text.Basic

/-!
# Paths

A path is a text; two paths are the same if they have the same components, so that doubled and
closing slashes and inner single points make no difference.
-/

namespace DeploymentRecords.Files

abbrev Path := Text

inductive Component where
  | root
  | here
  | up
  | name (name : Text)
  deriving DecidableEq, Repr

namespace Path

def parts : Path → List Text
  | [] => [[]]
  | c :: path =>
    if c = '/' then [] :: parts path
    else
      match parts path with
      | [] => [[c]]
      | p :: ps => (c :: p) :: ps

def isAbsolute (path : Path) : Bool := path.head? = some '/'

def component? (part : Text) : Option Component :=
  if part = [] ∨ part = ['.'] then none
  else if part = ['.', '.'] then some .up
  else some (.name part)

/-- A single point counts only where a path begins with it. -/
def components (path : Path) : List Component :=
  (if isAbsolute path then [.root] else if (parts path).head? = some ['.'] then [.here] else []) ++
    (parts path).filterMap component?

def same (a b : Path) : Bool := components a = components b

theorem same_iff {a b : Path} : same a b = true ↔ components a = components b := by
  simp [same]

def fileName? (path : Path) : Option Text :=
  match (components path).getLast? with
  | some (.name n) => some n
  | _ => none

def join (root path : Path) : Path :=
  if isAbsolute path then path
  else if root = [] ∨ root.getLast? = some '/' then root ++ path
  else root ++ '/' :: path

end Path

end DeploymentRecords.Files
