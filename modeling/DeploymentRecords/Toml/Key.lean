import DeploymentRecords.Toml.Quoted

/-!
# Keys

A key as it stands in a document: its name, how the name is spelt, and the blanks around it. Keys
that end a path carry what surrounds the whole path as well, comments and empty lines above it
included. `none` leaves the choice of the surroundings to the printer.
-/

namespace DeploymentRecords.Toml

structure Surround where
  before : Text
  after : Text
  deriving DecidableEq, Repr

structure Key where
  name : Text
  spelling : Text
  /-- Inside a path, between the points. -/
  inner : Option Surround
  /-- Around the path that this key ends. -/
  outer : Option Surround
  deriving DecidableEq, Repr

def isBareKey (c : Char) : Bool :=
  Number.isDigit c || ('a' ≤ c && c ≤ 'z') || ('A' ≤ c && c ≤ 'Z') || c = '_' || c = '-'

namespace Key

/-- The spelling of a new key: bare, else basic or literal if no character needs an escape, else
basic with escapes. -/
def quote (name : Text) : Text :=
  if name ≠ [] ∧ name.all isBareKey then name
  else if Form.basic.fits name then Form.basic.write name
  else if Form.literal.fits name then Form.literal.write name
  else Form.basic.write name

def new (name : Text) : Key := ⟨name, quote name, none, none⟩

def readName? : Text → Option (Text × Text)
  | '"' :: s => readBasic? s
  | '\'' :: s => readLiteral? s
  | s =>
    match s.takeWhile isBareKey with
    | [] => none
    | name => some (name, s.dropWhile isBareKey)

def read? (s : Text) : Option (Key × Text) :=
  let start := s.dropWhile isSpace
  match readName? start with
  | none => none
  | some (name, rest) =>
    let blanks : Surround := ⟨s.takeWhile isSpace, rest.takeWhile isSpace⟩
    some (⟨name, Text.taken start rest, some blanks, none⟩, rest.dropWhile isSpace)

def readPath? (s : Text) : Option (List Key × Text) :=
  match read? s with
  | some (key, '.' :: rest) =>
    if _h : rest.length < s.length then (readPath? rest).map fun (path, rest) => (key :: path, rest)
    else none
  | some (key, rest) => some ([key], rest)
  | none => none
termination_by s.length

def before (key : Key) : Text := (key.inner.map Surround.before).getD []
def after (key : Key) : Text := (key.inner.map Surround.after).getD []

/-- Hands the blanks at the end of a path, and the text `lead` before it, to its last key. -/
def settleLast (lead : Text) : List Key → List Key
  | [] => []
  | [key] => [{ key with inner := some ⟨key.before, []⟩, outer := some ⟨lead, key.after⟩ }]
  | key :: path => key :: settleLast lead path

def settle (lead : Text) : List Key → List Key
  | [] => []
  | key :: path =>
    settleLast (lead ++ key.before) ({ key with inner := some ⟨[], key.after⟩ } :: path)

def maxPath : Nat := 80

def readPathAfter? (lead s : Text) : Option (List Key × Text) :=
  match readPath? s with
  | some (path, rest) => if path.length < maxPath then some (settle lead path, rest) else none
  | none => none

def joined : List Key → Text
  | [] => []
  | [key] => key.spelling
  | key :: next :: path => key.spelling ++ key.after ++ '.' :: next.before ++ joined (next :: path)

def pathText (default : Surround) (path : List Key) : Text :=
  let outer := (path.getLast?.bind outer).getD default
  outer.before ++ joined path ++ outer.after

end Key

end DeploymentRecords.Toml
