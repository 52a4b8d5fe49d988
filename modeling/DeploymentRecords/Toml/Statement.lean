import DeploymentRecords.Toml.ExprReader

/-!
# Statements

A document in the order of its lines: headers and assignments, each with the comments and empty
lines above it. Reading divides a text into statements and a last remark without one; it knows
nothing of which keys may stand together.
-/

namespace DeploymentRecords.Toml

inductive Statement where
  | header (array : Bool) (path : List Key) (around : Surround)
  | assign (path : List Key) (e : Expr)

namespace Statement

def readLineEnd? (s : Text) : Option (Text × Text) :=
  let stop :=
    match s.dropWhile isSpace with
    | '#' :: rest => rest.dropWhile isPrintable
    | rest => rest
  match stop with
  | [] => some (Text.taken s stop, [])
  | _ => (afterNewline? stop).map fun next => (Text.taken s stop, next)

def readHeader? (array : Bool) (lead s : Text) : Option (Statement × Text) :=
  match Key.readPathAfter? [] s with
  | some (path, rest) =>
    match Text.after? (if array then [']', ']'] else [']']) rest with
    | some rest => (readLineEnd? rest).map fun (trail, rest) =>
      (.header array path ⟨lead, trail⟩, rest)
    | none => none
  | none => none

def readAssign? (lead s : Text) : Option (Statement × Text) :=
  match Key.readPathAfter? lead s with
  | some (path, '=' :: rest) =>
    match Expr.read? (rest.dropWhile isSpace) with
    | some (e, stop) => (readLineEnd? stop).map fun (trail, next) =>
      (.assign path (e.within (some ⟨rest.takeWhile isSpace, trail⟩)), next)
    | none => none
  | _ => none

def read? (lead : Text) : Text → Option (Statement × Text)
  | '[' :: '[' :: s => readHeader? true lead s
  | '[' :: s => readHeader? false lead s
  | s => readAssign? lead s

def readAll? (s : Text) : Option (List Statement × Text) :=
  let start := afterGap s
  let lead := Text.taken s start
  if start = [] then some ([], lead)
  else
    match read? lead start with
    | none => none
    | some (statement, rest) =>
      if _h : rest.length < s.length then
        (readAll? rest).map fun (statements, trail) => (statement :: statements, trail)
      else none
termination_by s.length

def newKey : Surround := ⟨[], [' ']⟩

def text : Statement → Text
  | .header true path around =>
    around.before ++ '[' :: '[' :: Key.pathText Expr.bare path ++ ']' :: ']' :: around.after ++ ['\n']
  | .header false path around =>
    around.before ++ '[' :: Key.pathText Expr.bare path ++ ']' :: around.after ++ ['\n']
  | .assign path e => Key.pathText newKey path ++ '=' :: e.text Expr.spaced ++ ['\n']

end Statement

end DeploymentRecords.Toml
