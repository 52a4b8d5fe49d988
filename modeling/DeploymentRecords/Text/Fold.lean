import DeploymentRecords.Text.Basic
import DeploymentRecords.Text.FoldTable

/-!
# Matching without regard to case

Two characters match when their simple case foldings are equal, two texts when they match
character by character.
-/

namespace DeploymentRecords.Text

def fold (c : Char) : Char := ((imageOf? c.toNat foldRuns).map Char.ofNat).getD c

def afterFolded? : Text → Text → Option Text
  | [], s => some s
  | _ :: _, [] => none
  | c :: head, d :: s => if fold c = fold d then afterFolded? head s else none

end DeploymentRecords.Text
