import DeploymentRecords.Text.Basic
import DeploymentRecords.Text.CharRange

/-!
# White space

The characters with the property White_Space, and texts without them at either end.
-/

namespace DeploymentRecords.Text

def blankRanges : List (Nat × Nat) :=
  [(0x9, 0xD), (0x20, 0x20), (0x85, 0x85), (0xA0, 0xA0), (0x1680, 0x1680), (0x2000, 0x200A),
   (0x2028, 0x2029), (0x202F, 0x202F), (0x205F, 0x205F), (0x3000, 0x3000)]

def isBlank (c : Char) : Bool := inRanges c.toNat blankRanges

def trimStart (s : Text) : Text := s.dropWhile isBlank

def trimEnd : Text → Text
  | [] => []
  | c :: s =>
    match trimEnd s with
    | [] => if isBlank c then [] else [c]
    | t => c :: t

def trim (s : Text) : Text := trimEnd (trimStart s)

end DeploymentRecords.Text
