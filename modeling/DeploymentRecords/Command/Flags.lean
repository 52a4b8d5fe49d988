import DeploymentRecords.Files.Tree

/-!
# Arguments

A command takes flags, each at most once and each with one value, in the next argument or behind
an equals sign; and it can be asked for help. Arguments are read from left to right, and the first
one that cannot be used or asks for help decides.
-/

namespace DeploymentRecords.Command

open Files

inductive Request where
  | help
  | misuse
  /-- Flags with their values, the last one first. -/
  | flags (values : List (Text × Text))
  deriving DecidableEq, Repr

/-- A value in an argument of its own must not look like a flag. -/
def isValue : Text → Bool
  | '-' :: _ :: _ => false
  | _ => true

inductive Argument where
  | stop
  | help
  | flag (name : Text) (value : Option Text)
  | other
  deriving DecidableEq, Repr

def Argument.ofText (s : Text) : Argument :=
  match s with
  | ['-', '-'] => .stop
  | '-' :: '-' :: body =>
    let name := body.takeWhile (· ≠ '=')
    match body.dropWhile (· ≠ '=') with
    | [] => if name = "help".toList then .help else .flag name none
    | _ :: value => .flag name (some value)
  | '-' :: 'h' :: _ => .help
  | _ => .other

/-- An argument that is no text can still begin as a request for help, and then is one. -/
def Argument.ofBytes (arg : ByteArray) : Argument :=
  match Tree.decode? arg with
  | some s => .ofText s
  | none => if [0x2D, 0x68].isPrefixOf arg.data.toList then .help else .other

namespace Request

def allows (known : List Text) (given : List (Text × Text)) (name : Text) : Bool :=
  name ∈ known && (given.lookup name).isNone

def readFrom (known : List Text) (given : List (Text × Text)) : List ByteArray → Request
  | [] => .flags given
  | arg :: args =>
    match Argument.ofBytes arg with
    | .other => .misuse
    | .stop => if args.isEmpty then .flags given else .misuse
    | .help => .help
    | .flag name (some value) =>
      if allows known given name then readFrom known ((name, value) :: given) args else .misuse
    | .flag name none =>
      match args with
      | [] => .misuse
      | value :: args =>
        match Tree.decode? value with
        | none => .misuse
        | some value =>
          if allows known given name ∧ isValue value then
            readFrom known ((name, value) :: given) args
          else .misuse

def read (known : List Text) (args : List ByteArray) : Request := readFrom known [] args

end Request

end DeploymentRecords.Command
