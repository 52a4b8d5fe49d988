import DeploymentRecords.Files.Path

/-!
# File trees

The files around a working directory at one moment, and what their permissions deny. Opening a file
for reading or writing either succeeds or fails with one of a few faults, and a write that fails
changes nothing.
-/

namespace DeploymentRecords.Files

inductive Fault where
  | notFound
  | notDirectory
  | isDirectory
  | nameTooLong
  | denied
  | nulInName
  | invalidEncoding
  deriving DecidableEq, Repr

def Fault.message : Fault → Text
  | notFound => "No such file or directory (os error 2)".toList
  | notDirectory => "Not a directory (os error 20)".toList
  | isDirectory => "Is a directory (os error 21)".toList
  | nameTooLong => "File name too long (os error 36)".toList
  | denied => "Permission denied (os error 13)".toList
  | nulInName => "file name contained an unexpected NUL byte".toList
  | invalidEncoding => "stream did not contain valid UTF-8".toList

inductive Base where
  | working (above : Nat)
  | root
  deriving DecidableEq, Repr

structure Place where
  base : Base
  names : List Text
  deriving DecidableEq, Repr

namespace Place

def child (place : Place) (name : Text) : Place := { place with names := place.names ++ [name] }

def parent : Place → Place
  | ⟨.root, []⟩ => ⟨.root, []⟩
  | ⟨.working n, []⟩ => ⟨.working (n + 1), []⟩
  | ⟨base, names⟩ => ⟨base, names.dropLast⟩

def start (path : Path) : Place := ⟨if Path.isAbsolute path then .root else .working 0, []⟩

def step (place : Place) (part : Text) : Place :=
  if part = [] ∨ part = ['.'] then place
  else if part = ['.', '.'] then place.parent
  else place.child part

def ofPath (path : Path) : Place := (Path.parts path).foldl step (start path)

end Place

inductive Node where
  | file (content : ByteArray)
  | directory

/-- What a permission is for. A directory is searched for the names in it, and written to where one
is added. -/
inductive Access where
  | read
  | write
  | search
  deriving DecidableEq, Repr

structure Tree where
  nodes : List (Place × Node)
  denied : List (Place × Access) := []

namespace Tree

def empty : Tree where
  nodes := []

def denies (tree : Tree) (access : Access) (place : Place) : Bool :=
  tree.denied.contains (place, access)

def deny (tree : Tree) (access : Access) (place : Place) : Tree :=
  { tree with denied := (place, access) :: tree.denied }

def node? (tree : Tree) (place : Place) : Option Node :=
  if place.names = [] then some .directory else tree.nodes.lookup place

def set (tree : Tree) (place : Place) (node : Node) : Tree :=
  { tree with nodes := tree.nodes.filter (·.1 ≠ place) ++ [(place, node)] }

@[simp] theorem denies_set (tree : Tree) (place other : Place) (node : Node) (access : Access) :
    (tree.set place node).denies access other = tree.denies access other := rfl

theorem node?_set (tree : Tree) (place other : Place) (node : Node) (h : place.names ≠ []) :
    (tree.set place node).node? other = if other = place then some node else tree.node? other := by
  have kept : (tree.nodes.filter (·.1 ≠ place) ++ [(place, node)]).lookup other =
      if other = place then some node else tree.nodes.lookup other := by
    induction tree.nodes with
    | nil =>
      by_cases ho : other = place
      · simp [ho]
      · have : (other == place) = false := by simpa using ho
        simp [List.lookup_cons, this, ho]
    | cons entry nodes ih =>
      obtain ⟨p, n⟩ := entry
      by_cases hp : p = place
      · subst hp
        by_cases ho : other = p
        · simpa [ho] using ih
        · have : (other == p) = false := by simpa using ho
          simpa [List.lookup_cons, this, ho] using ih
      · by_cases ho : other = p
        · subst ho
          simp [hp]
        · have : (other == p) = false := by simpa using ho
          simpa [List.lookup_cons, this, hp] using ih
  by_cases ho : other = place
  · subst ho
    simpa [node?, set, h] using kept
  · by_cases hn : other.names = []
    · simp [node?, hn, ho]
    · simpa [node?, set, hn, ho] using kept

def withDirectories (tree : Tree) (place : Place) : List Text → Tree
  | [] => tree
  | name :: names =>
    let place := place.child name
    let tree := if (tree.node? place).isSome then tree else tree.set place .directory
    tree.withDirectories place names

def put (tree : Tree) (place : Place) (node : Node) : Tree :=
  (tree.withDirectories ⟨place.base, []⟩ place.names.dropLast).set place node

def remove (tree : Tree) (place : Place) : Tree :=
  { tree with nodes := tree.nodes.filter fun (p, _) =>
      !(p.base = place.base && place.names.isPrefixOf p.names) }

def byteLength (s : Text) : Nat := (String.ofList s).utf8ByteSize

def maxPath : Nat := 4095
def maxName : Nat := 255

def fault? (path : Path) : Option Fault :=
  if '\x00' ∈ path then some .nulInName
  else if path = [] then some .notFound
  else if maxPath < byteLength path then some .nameTooLong
  else none

/-- Follows the parts of a path. Every part needs a directory to stand in, also an empty part
behind a closing slash; only for a part that is not empty is the directory searched. -/
def follow (tree : Tree) (place : Place) : List Text → Except Fault Place
  | [] => .ok place
  | part :: parts =>
    match tree.node? place with
    | none => .error .notFound
    | some (.file _) => .error .notDirectory
    | some .directory =>
      if part ≠ [] ∧ tree.denies .search place then .error .denied
      else if maxName < byteLength part then .error .nameTooLong
      else if (tree.node? (place.step part)).isNone then .error .notFound
      else tree.follow (place.step part) parts

def locate (tree : Tree) (path : Path) : Except Fault Place :=
  match fault? path with
  | some fault => .error fault
  | none => tree.follow (Place.start path) (Path.parts path)

def present (tree : Tree) (path : Path) : Bool :=
  match tree.locate path with
  | .ok _ => true
  | .error _ => false

def readBytes (tree : Tree) (path : Path) : Except Fault ByteArray :=
  match tree.locate path with
  | .error fault => .error fault
  | .ok place =>
    if tree.denies .read place then .error .denied
    else
      match tree.node? place with
      | some (.file content) => .ok content
      | some .directory => .error .isDirectory
      | none => .error .notFound

def decode? (content : ByteArray) : Option Text := (String.fromUTF8? content).map String.toList
def encode (s : Text) : ByteArray := (String.ofList s).toUTF8

def read (tree : Tree) (path : Path) : Except Fault Text :=
  match tree.readBytes path with
  | .error fault => .error fault
  | .ok content =>
    match decode? content with
    | some s => .ok s
    | none => .error .invalidEncoding

/-- The place that a write to `path` goes to: its directory has to be there, and neither the path
nor what is at the place may be a directory. A file that is not there yet is added to its
directory. -/
def target (tree : Tree) (path : Path) : Except Fault Place :=
  match fault? path with
  | some fault => .error fault
  | none =>
    let parts := Path.parts path
    let closed := (parts.reverse.dropWhile (· = [])).reverse
    match closed.getLast? with
    | none => .error .isDirectory
    | some last =>
      match tree.follow (Place.start path) closed.dropLast with
      | .error fault => .error fault
      | .ok place =>
        match tree.node? place with
        | none => .error .notFound
        | some (.file _) => .error .notDirectory
        | some .directory =>
          if tree.denies .search place then .error .denied
          else if closed ≠ parts ∨ last = ['.'] ∨ last = ['.', '.'] then .error .isDirectory
          else if maxName < byteLength last then .error .nameTooLong
          else
            match tree.node? (place.child last) with
            | some .directory => .error .isDirectory
            | some (.file _) =>
              if tree.denies .write (place.child last) then .error .denied else .ok (place.child last)
            | none => if tree.denies .write place then .error .denied else .ok (place.child last)

def write (tree : Tree) (path : Path) (s : Text) : Except Fault Tree :=
  match tree.target path with
  | .error fault => .error fault
  | .ok place => .ok (tree.set place (.file (encode s)))

end Tree

end DeploymentRecords.Files
