import DeploymentRecords.Command.Check
import DeploymentRecords.Command.Update

/-!
# The program

The first argument names the command. The files that it looks at are read beforehand, and the
deployment file is written afterwards.
-/

namespace DeploymentRecords.Main

open Files

/-- The tree with what is found at a path. Directories on the way are taken to be there, so that a
file that is not is found missing in its directory; nothing is below a file. -/
def fetch (tree : Tree) (path : Path) : IO Tree := do
  let place := Place.ofPath path
  try
    return (tree.remove place).put place (.file (← IO.FS.readBinFile (String.ofList path)))
  catch
    | .inappropriateType _ 21 _ => return tree.put place .directory
    | .inappropriateType .. => return tree.put place.parent (.file ByteArray.empty)
    | .permissionDenied .. => return (tree.put place (.file ByteArray.empty)).deny .read place
    | _ => return tree.put place.parent .directory

def fetchAll (tree : Tree) (paths : List Path) : IO Tree := paths.foldlM fetch tree

/-- The tree with what is found when a file that could be read is opened for writing. -/
def fetchAccess (tree : Tree) (path : Path) : IO Tree := do
  match tree.readBytes path with
  | .error _ => return tree
  | .ok _ =>
    try
      let _ ← IO.FS.Handle.mk (String.ofList path) .append
      return tree
    catch
      | .permissionDenied .. => return tree.deny .write (Place.ofPath path)
      | _ => return tree

def finish (outcome : Command.Outcome) : IO UInt32 := do
  (← IO.getStdout).putStr (String.ofList outcome.stdout)
  (← IO.getStderr).putStr (String.ofList outcome.stderr)
  return outcome.status.toUInt32

def environment (name : String) : IO (Option Text) := do
  return (← IO.getEnv name).map String.toList

def check (args : List ByteArray) : IO UInt32 := do
  let color := Command.Check.wantsColor (← environment "CLICOLOR_FORCE") (← environment "NO_COLOR")
    (← environment "CLICOLOR") (← (← IO.getStdout).isTty)
  let tree ← fetchAll Tree.empty (Command.Check.reads Tree.empty)
  let tree ← fetchAll tree (Command.Check.reads tree)
  finish (Command.Check.command color args tree)

def update (args : List ByteArray) : IO UInt32 := do
  let chainKey := (← IO.getEnv "CHAIN_KEY").map String.toUTF8
  let tree ← fetchAll Tree.empty Command.Update.reads
  let tree ← Command.Update.reads.foldlM fetchAccess tree
  let outcome := Command.Update.command chainKey args tree
  match tree.readBytes Plan.deploymentPath, outcome.tree.readBytes Plan.deploymentPath with
  | .ok old, .ok new =>
    if old.data ≠ new.data then IO.FS.writeBinFile (String.ofList Plan.deploymentPath) new
  | _, _ => pure ()
  finish outcome

end DeploymentRecords.Main

open DeploymentRecords in
def main (args : List String) : IO UInt32 :=
  match args with
  | "check" :: args => Main.check (args.map String.toUTF8)
  | "update" :: args => Main.update (args.map String.toUTF8)
  | _ => do
    (← IO.getStderr).putStr "error: a command is needed: check or update\n"
    return 2
