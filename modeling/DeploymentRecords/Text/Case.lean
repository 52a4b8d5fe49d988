import DeploymentRecords.Text.Basic
import DeploymentRecords.Text.CaseTable

/-!
# Letter case

Full case mapping of texts, in which one character may become several, and a capital sigma at the
end of a word becomes the final form.
-/

namespace DeploymentRecords.Text

def isCased (c : Char) : Bool := inRanges c.toNat casedRanges
def isCaseIgnorable (c : Char) : Bool := inRanges c.toNat caseIgnorableRanges

/-- The dotted capital I is the one letter whose lower case keeps a combining mark. -/
def lowerChar (c : Char) : Text :=
  if c = 'İ' then ['i', '\u0307']
  else [((imageOf? c.toNat lowerRuns).map Char.ofNat).getD c]

def upperChar (c : Char) : Text :=
  match longUppers.lookup c.toNat with
  | some cs => cs.map Char.ofNat
  | none => [((imageOf? c.toNat upperRuns).map Char.ofNat).getD c]

def startsCased (s : Text) : Bool :=
  match s.dropWhile isCaseIgnorable with
  | c :: _ => isCased c
  | [] => false

/-- Lower case of a text that follows a cased character iff `afterCased`. -/
def lowerFrom (afterCased : Bool) : Text → Text
  | [] => []
  | c :: s =>
    (if c = 'Σ' then [if afterCased && !startsCased s then 'ς' else 'σ'] else lowerChar c) ++
      lowerFrom (if isCaseIgnorable c then afterCased else isCased c) s

def lower (s : Text) : Text := lowerFrom false s
def upper (s : Text) : Text := s.flatMap upperChar

end DeploymentRecords.Text
