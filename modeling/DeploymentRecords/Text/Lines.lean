import DeploymentRecords.Text.Blank

/-!
# Lines

A line ends with a line feed, before which one carriage return is dropped; the last line may lack
its line feed. A text is tidy when every line is terminated and none ends in white space.
-/

namespace DeploymentRecords.Text

def lines : Text → List Text
  | [] => []
  | '\n' :: s => [] :: lines s
  | '\r' :: '\n' :: s => [] :: lines s
  | c :: s =>
    match lines s with
    | [] => [[c]]
    | l :: ls => (c :: l) :: ls

/-- The lines of `s` without the white space at their ends, each terminated by a line feed; an
empty text has one empty line. -/
def tidy (s : Text) : Text := join ['\n'] ((lines s).map trimEnd) ++ ['\n']

end DeploymentRecords.Text
