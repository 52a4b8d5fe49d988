import DeploymentRecords.Text.Basic
import DeploymentRecords.Text.CharRange
import DeploymentRecords.Text.WordTable

/-!
# Words

A word is a longest run of word characters.
-/

namespace DeploymentRecords.Text

def isWord (c : Char) : Bool := inRanges c.toNat wordRanges

end DeploymentRecords.Text
