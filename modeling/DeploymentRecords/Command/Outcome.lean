import DeploymentRecords.Failure

/-!
# Outcomes of commands

A command turns the files of a moment into an exit status, two texts and the files of the next
moment. A failure is told with all that lies behind it.
-/

namespace DeploymentRecords.Command

open Files

structure Outcome where
  status : Nat
  stdout : Text
  stderr : Text
  tree : Tree

namespace Outcome

def success : Nat := 0
def failure : Nat := 1
def misuse : Nat := 2

end Outcome

def indented (margin : Text) (s : Text) : Text :=
  s.flatMap fun c => if c = '\n' then '\n' :: margin else [c]

def causeText : Option Nat → Text → Text
  | none, cause => "    ".toList ++ indented "    ".toList cause
  | some n, cause =>
    let number := Nat.toDigits 10 n
    List.replicate (5 - number.length) ' ' ++ number ++ ": ".toList ++
      indented "       ".toList cause

def errorText (message : Text) (causes : List Text) : Text :=
  let numbers := if causes.length ≤ 1 then [none] else (List.range causes.length).map some
  "Error: ".toList ++ message ++
    (if causes = [] then [] else "\n\nCaused by:".toList) ++
    ((numbers.zip causes).flatMap fun (n, cause) => '\n' :: causeText n cause) ++ ['\n']

def failureText (f : Failure) : Text := errorText f.message f.cause?.toList

def failureIn (message : Text) (f : Failure) : Text :=
  errorText message (f.message :: f.cause?.toList)

end DeploymentRecords.Command
