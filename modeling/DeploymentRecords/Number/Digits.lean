import DeploymentRecords.Text.Basic

/-!
# Digits

Numerals in a base up to sixteen, with or without single underscores between two digits.
-/

namespace DeploymentRecords.Number

def isDigit (c : Char) : Bool := '0' ≤ c && c ≤ '9'
def isHexDigit (c : Char) : Bool := isDigit c || ('a' ≤ c && c ≤ 'f') || ('A' ≤ c && c ≤ 'F')

def digitValue (c : Char) : Nat :=
  if isDigit c then c.toNat - '0'.toNat
  else if 'a' ≤ c && c ≤ 'f' then c.toNat - 'a'.toNat + 10
  else if 'A' ≤ c && c ≤ 'F' then c.toNat - 'A'.toNat + 10
  else 0

def ofDigits (base : Nat) (s : Text) : Nat := s.foldl (fun n c => n * base + digitValue c) 0

def decimal (n : Nat) : Text := Nat.toDigits 10 n

def padded (width n : Nat) : Text :=
  List.replicate (width - (decimal n).length) '0' ++ decimal n

def signed (n : Int) : Text :=
  if n < 0 then '-' :: decimal n.natAbs else decimal n.natAbs

/-- The digits of a numeral in which a single underscore may stand between two digits. -/
def ungrouped? (digit : Char → Bool) : Text → Option Text
  | [] => none
  | [c] => if digit c then some [c] else none
  | c :: '_' :: s => if digit c then (ungrouped? digit s).map (c :: ·) else none
  | c :: s => if digit c then (ungrouped? digit s).map (c :: ·) else none

def readDigits? : Nat → Text → Option (Nat × Text)
  | count, s =>
    let digits := s.take count
    if digits.length = count ∧ digits.all isDigit then some (ofDigits 10 digits, s.drop count)
    else none

end DeploymentRecords.Number
