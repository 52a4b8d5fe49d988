import DeploymentRecords.Audit
import DeploymentRecords.Command.Flags
import DeploymentRecords.Command.Outcome

/-!
# The check command

Audits the working directory and prints the findings: placeholders under a heading, then all others,
then the verdict.
-/

namespace DeploymentRecords.Command.Check

open Files

inductive Style where
  | red
  | boldRed
  | boldGreen
  deriving DecidableEq, Repr

def Style.begin : Style → Text
  | red => "\x1b[31m".toList
  | boldRed => "\x1b[1;31m".toList
  | boldGreen => "\x1b[1;32m".toList

def plain : Text := "\x1b[0m".toList

def resumed (style : Style) : Text → Text
  | [] => []
  | c :: s =>
    match Text.after? plain (c :: s) with
    | some _ => plain ++ style.begin ++ resumed style (s.drop (plain.length - 1))
    | none => c :: resumed style s
termination_by s => s.length

def Style.apply (color : Bool) (style : Style) (s : Text) : Text :=
  if color then style.begin ++ resumed style s ++ plain else s

/-- Whether to use styles: the variable that forces them comes first, then the one that forbids
them; otherwise they are for terminals, unless switched off. -/
def wantsColor (force forbid switch : Option Text) (terminal : Bool) : Bool :=
  let isOn (v : Text) : Bool := v ≠ ['0']
  if force.any isOn then true
  else if forbid.isSome then false
  else switch.all isOn && terminal

def success : Text :=
  "✅ All deployment addresses match across deployment.toml, deployments.rs, and documentation.".toList

def heading : Text := "❌ Found TODO placeholders in documentation:".toList

def verdict (count : Nat) : Text :=
  "❌ Found ".toList ++ Nat.toDigits 10 count ++
    " issues. Please check inconsistencies or TODO placeholders.".toList

def line (s : Text) : Text := s ++ ['\n']

def auditText (color : Bool) (audit : Audit) : Text :=
  (if audit.placeholders.isEmpty then [] else line (Style.red.apply color heading)) ++
    (audit.placeholders.flatMap fun f => line f.text) ++
    (audit.disagreements.flatMap fun f => line (Style.red.apply color f.text)) ++
    if audit.isClean then line (Style.boldGreen.apply color success)
    else '\n' :: line (Style.boldRed.apply color (verdict audit.findings.length))

def help : Text :=
  "Verify deployment addresses agree across config, source and docs

Usage: deployments-check

Options:
  -h, --help  Print help
".toList

def misuse : Text := "error: unexpected argument\n\nUsage: deployments-check\n".toList

def here : Path := ['.']

def run (color : Bool) (tree : Tree) : Outcome :=
  match PlanFile.load tree here with
  | .error f => ⟨Outcome.failure, [], failureText f, tree⟩
  | .ok plan =>
    match plan.auditFiles tree here with
    | .error f => ⟨Outcome.failure, [], failureIn "Failed to load deployment inputs".toList f, tree⟩
    | .ok audit =>
      ⟨if audit.isClean then Outcome.success else Outcome.failure, auditText color audit, [], tree⟩

def command (color : Bool) (args : List ByteArray) (tree : Tree) : Outcome :=
  match Request.read [] args with
  | .help => ⟨Outcome.success, help, [], tree⟩
  | .misuse => ⟨Outcome.misuse, [], misuse, tree⟩
  | .flags _ => run color tree

def reads (tree : Tree) : List Path :=
  Path.join here PlanFile.fileName ::
    match PlanFile.load tree here with
    | .error _ => []
    | .ok plan => (plan.deployments :: plan.sources ++ [plan.documentation]).map (Path.join here)

end DeploymentRecords.Command.Check
