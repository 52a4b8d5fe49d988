import DeploymentRecords.Files.Tree

/-!
# Failures

What keeps a command from doing its work. Differences between the records are not failures; they
are findings.
-/

namespace DeploymentRecords

open Files

inductive Failure where
  | read (path : Path) (fault : Fault)
  | write (path : Path) (fault : Fault)
  | deployments (path : Path)
  | edit (path : Path)
  | plan (path : Path)
  | noSection (network : Text) (path : Path)
  deriving DecidableEq, Repr

namespace Failure

def subject : Failure → Text
  | read path _ => "Failed to read ".toList ++ path
  | write path _ => "Failed to write ".toList ++ path
  | deployments path => "Failed to parse ".toList ++ path
  | edit path => "Failed to parse ".toList ++ path
  | plan path => "Failed to parse check configuration ".toList ++ path
  | noSection network path =>
    "[deployment.".toList ++ network ++ "] section not found in ".toList ++ path

def cause? : Failure → Option Text
  | read _ fault => some fault.message
  | write _ fault => some fault.message
  | deployments _ => some "TOML parse error".toList
  | edit _ => some "TOML parse error".toList
  | plan _ => some "TOML parse error".toList
  | noSection _ _ => none

def message (failure : Failure) : Text :=
  match failure.cause? with
  | some cause => failure.subject ++ ": ".toList ++ cause
  | none => failure.subject

end Failure

end DeploymentRecords
