import DeploymentRecords.Toml.Expr

/-!
# Reading expressions

Arrays and inline tables may be nested up to a depth; an array may run over several lines and hold
comments, an inline table may not. Keys of an inline table are put into it one after the other, and
a key that is taken already is refused.
-/

namespace DeploymentRecords.Toml

mutual

def afterGap : Text → Text
  | ' ' :: s => afterGap s
  | '\t' :: s => afterGap s
  | '\n' :: s => afterGap s
  | '\r' :: '\n' :: s => afterGap s
  | '#' :: s => afterComment s
  | s => s

def afterComment : Text → Text
  | [] => []
  | '\n' :: s => afterGap s
  | '\r' :: '\n' :: s => afterGap s
  | c :: s => if isPrintable c then afterComment s else c :: s

end

namespace Expr

/-- Adds the value of a path below a table; keys in the middle of a path lead to dotted tables. -/
def insert? : List Key → Expr → List (Key × Expr) → Option (List (Key × Expr))
  | [], _, _ => none
  | [key], e, entries =>
    if entries.any (·.1.name = key.name) then none else some (entries ++ [(key, e)])
  | key :: path, e, entries =>
    match entries.find? (·.1.name = key.name) with
    | none => (insert? path e []).map fun sub => entries ++ [(key, .table sub true [] none)]
    | some (_, .table sub true lead around) =>
      (insert? path e sub).map fun sub => entries.map fun (k, old) =>
        if k.name = key.name then (k, .table sub true lead around) else (k, old)
    | some _ => none

def ofPairs? (pairs : List (List Key × Expr)) : Option (List (Key × Expr)) :=
  pairs.foldlM (fun entries (path, e) => insert? path e entries) []

/-- The elements of an array up to its bracket; `comma` tells whether a comma stands before. -/
def readElements? (element : Text → Option (Expr × Text)) (comma : Bool) (s : Text) :
    Option (Expr × Text) :=
  let start := afterGap s
  match start with
  | ']' :: rest => some (.array [] comma (Text.taken s start) none, rest)
  | _ =>
    match element start with
    | none => none
    | some (e, rest) =>
      let stop := afterGap rest
      let e := e.within (some ⟨Text.taken s start, Text.taken rest stop⟩)
      match stop with
      | ']' :: rest => some (.array [e] false [] none, rest)
      | ',' :: rest =>
        if _h : rest.length < s.length then
          match readElements? element true rest with
          | some (.array es comma trail around, rest) => some (.array (e :: es) comma trail around, rest)
          | _ => none
        else none
      | _ => none
termination_by s.length

def readPairs? (element : Text → Option (Expr × Text)) (s : Text) :
    Option (List (List Key × Expr) × Text) :=
  match Key.readPathAfter? [] s with
  | some (path, '=' :: rest) =>
    let start := rest.dropWhile isSpace
    match element start with
    | none => none
    | some (e, stop) =>
      let e := e.within (some ⟨rest.takeWhile isSpace, stop.takeWhile isSpace⟩)
      match stop.dropWhile isSpace with
      | '}' :: rest => some ([(path, e)], rest)
      | ',' :: rest =>
        if _h : rest.length < s.length then
          (readPairs? element rest).map fun (pairs, rest) => ((path, e) :: pairs, rest)
        else none
      | _ => none
  | _ => none
termination_by s.length

def readTable? (element : Text → Option (Expr × Text)) (s : Text) : Option (Expr × Text) :=
  match s.dropWhile isSpace with
  | '}' :: rest => some (.table [] false (s.takeWhile isSpace) none, rest)
  | _ =>
    match readPairs? element s with
    | none => none
    | some (pairs, rest) => (ofPairs? pairs).map fun entries => (.table entries false [] none, rest)

/-- An expression with at most `depth` arrays and inline tables inside each other. -/
def readNested? (depth : Nat) (s : Text) : Option (Expr × Text) :=
  match s with
  | '"' :: _ | '\'' :: _ =>
    (readString? s).map fun (t, rest) => (.scalar (.string t) (Text.taken s rest) none, rest)
  | '[' :: rest =>
    match depth with
    | 0 => none
    | depth + 1 => readElements? (readNested? depth) false rest
  | '{' :: rest =>
    match depth with
    | 0 => none
    | depth + 1 => readTable? (readNested? depth) rest
  | s => (readWord? s).map fun (v, rest) => (.scalar v (Text.taken s rest) none, rest)

def maxDepth : Nat := 79

def read? (s : Text) : Option (Expr × Text) := readNested? maxDepth s

end Expr

end DeploymentRecords.Toml
