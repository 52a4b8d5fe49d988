import DeploymentRecords.Number.Binary64
import DeploymentRecords.Toml.Datetime
import DeploymentRecords.Toml.Quoted

/-!
# Scalars

Values without parts. All but strings are written as bare words; a date-time may be two words
parted by one space.
-/

namespace DeploymentRecords.Toml

open Number

inductive Scalar where
  | string (s : Text)
  | integer (n : Int)
  | float (x : Binary64)
  | boolean (b : Bool)
  | datetime (d : Datetime)
  deriving DecidableEq, Repr

def splitSign : Text → Bool × Text
  | '-' :: s => (true, s)
  | '+' :: s => (false, s)
  | s => (false, s)

def wholeDigits? (s : Text) : Option Text :=
  match ungrouped? isDigit s with
  | some ('0' :: _ :: _) => none
  | digits => digits

def isOctalDigit (c : Char) : Bool := '0' ≤ c && c ≤ '7'
def isBinaryDigit (c : Char) : Bool := c = '0' || c = '1'

def inRange? (n : Int) : Option Int :=
  if -9223372036854775808 ≤ n ∧ n < 9223372036854775808 then some n else none

def integer? : Text → Option Int
  | '0' :: 'x' :: s => (ungrouped? isHexDigit s).bind fun d => inRange? (ofDigits 16 d)
  | '0' :: 'o' :: s => (ungrouped? isOctalDigit s).bind fun d => inRange? (ofDigits 8 d)
  | '0' :: 'b' :: s => (ungrouped? isBinaryDigit s).bind fun d => inRange? (ofDigits 2 d)
  | s =>
    let (negative, s) := splitSign s
    (wholeDigits? s).bind fun d =>
      inRange? (if negative then -(ofDigits 10 d : Int) else ofDigits 10 d)

def exponent? : Text → Option Int
  | [] => some 0
  | _ :: s =>
    let (negative, s) := splitSign s
    (ungrouped? isDigit s).map fun d =>
      if negative then -(ofDigits 10 d : Int) else ofDigits 10 d

def fraction? : Text → Option Text
  | [] => some []
  | _ :: s => ungrouped? isDigit s

/-- A float has a fraction or an exponent or both, or is not finite. A positive float that
overflows is refused. -/
def float? (s : Text) : Option Binary64 :=
  let (negative, s) := splitSign s
  if s = ['i', 'n', 'f'] then some (.infinite negative)
  else if s = ['n', 'a', 'n'] then some .nan
  else
    let isMark (c : Char) : Bool := c = 'e' || c = 'E'
    let mantissa := s.takeWhile fun c => !isMark c
    let exponent := s.dropWhile fun c => !isMark c
    let whole := mantissa.takeWhile (· ≠ '.')
    let fraction := mantissa.dropWhile (· ≠ '.')
    if fraction = [] ∧ exponent = [] then none
    else
      match wholeDigits? whole, fraction? fraction, exponent? exponent with
      | some w, some f, some e =>
        let x := Binary64.ofDecimal negative (ofDigits 10 (w ++ f)) (e - f.length)
        if x = .infinite false then none else some x
      | _, _, _ => none

def isBare (c : Char) : Bool :=
  isDigit c || ('a' ≤ c && c ≤ 'z') || ('A' ≤ c && c ≤ 'Z') ||
    c = '_' || c = '-' || c = '+' || c = '.' || c = ':'

def Scalar.ofWord? (s : Text) : Option Scalar :=
  if s = ['t', 'r', 'u', 'e'] then some (.boolean true)
  else if s = ['f', 'a', 'l', 's', 'e'] then some (.boolean false)
  else
    ((Datetime.ofText? s).map datetime).or
      (((float? s).map float).or ((integer? s).map integer))

def isDate : Option Scalar → Bool
  | some (.datetime (.date _)) => true
  | _ => false

/-- A bare word at the front of a text. A date and a following time of day are one value. -/
def readWord? (s : Text) : Option (Scalar × Text) :=
  let word := s.takeWhile isBare
  let date := Scalar.ofWord? word
  match s.dropWhile isBare with
  | ' ' :: c :: rest =>
    if isDate date && isDigit c then
      (Scalar.ofWord? (word ++ ' ' :: (c :: rest).takeWhile isBare)).map
        (·, (c :: rest).dropWhile isBare)
    else date.map (·, ' ' :: c :: rest)
  | rest => date.map (·, rest)

def Scalar.text : Scalar → Text
  | string s => quote s
  | integer n => signed n
  | float x => x.text
  | boolean true => ['t', 'r', 'u', 'e']
  | boolean false => ['f', 'a', 'l', 's', 'e']
  | datetime d => d.text

end DeploymentRecords.Toml
