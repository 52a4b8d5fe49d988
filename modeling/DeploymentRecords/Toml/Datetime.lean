import DeploymentRecords.Number.Digits

/-!
# Dates and times

A date, a time of day, or both with an optional offset from universal time. Days are checked
against the calendar; a fraction of a second is cut off after nine digits.
-/

namespace DeploymentRecords.Toml

open Number

structure Date where
  year : Nat
  month : Nat
  day : Nat
  deriving DecidableEq, Repr

structure Time where
  hour : Nat
  minute : Nat
  second : Nat
  nanosecond : Nat
  deriving DecidableEq, Repr

inductive Offset where
  | universal
  | minutes (east : Int)
  deriving DecidableEq, Repr

inductive Datetime where
  | date (date : Date)
  | time (time : Time)
  | instant (date : Date) (time : Time) (offset : Option Offset)
  deriving DecidableEq, Repr

def isLeapYear (y : Nat) : Bool := y % 4 = 0 && (y % 100 ≠ 0 || y % 400 = 0)

def daysIn (year month : Nat) : Nat :=
  if month = 2 then if isLeapYear year then 29 else 28
  else if month ∈ [4, 6, 9, 11] then 30 else 31

def readDate? (s : Text) : Option (Date × Text) :=
  match readDigits? 4 s with
  | some (year, '-' :: s) =>
    match readDigits? 2 s with
    | some (month, '-' :: s) =>
      match readDigits? 2 s with
      | some (day, s) =>
        if 1 ≤ month ∧ month ≤ 12 ∧ 1 ≤ day ∧ day ≤ daysIn year month then
          some (⟨year, month, day⟩, s)
        else none
      | none => none
    | _ => none
  | _ => none

def nanoseconds (digits : Text) : Nat :=
  let digits := digits.take 9
  ofDigits 10 digits * Nat.pow 10 (9 - digits.length)

def readFraction? : Text → Option (Nat × Text)
  | '.' :: s =>
    match s.takeWhile isDigit with
    | [] => none
    | digits => some (nanoseconds digits, s.dropWhile isDigit)
  | s => some (0, s)

def readTime? (s : Text) : Option (Time × Text) :=
  match readDigits? 2 s with
  | some (hour, ':' :: s) =>
    match readDigits? 2 s with
    | some (minute, ':' :: s) =>
      match readDigits? 2 s with
      | some (second, s) =>
        if hour ≤ 23 ∧ minute ≤ 59 ∧ second ≤ 60 then
          (readFraction? s).map fun (nanosecond, s) => (⟨hour, minute, second, nanosecond⟩, s)
        else none
      | none => none
    | _ => none
  | _ => none

def offset? : Text → Option (Option Offset)
  | [] => some none
  | [c] => if c = 'Z' ∨ c = 'z' then some (some .universal) else none
  | sign :: s =>
    match readDigits? 2 s with
    | some (hours, ':' :: s) =>
      match readDigits? 2 s with
      | some (minutes, []) =>
        let east : Int := hours * 60 + minutes
        if 23 < hours ∨ 59 < minutes then none
        else if sign = '+' then some (some (.minutes east))
        else if sign = '-' then some (some (.minutes (-east)))
        else none
      | _ => none
    | _ => none

def isTimeMark (c : Char) : Bool := c = 'T' || c = 't' || c = ' '

def Datetime.ofText? (s : Text) : Option Datetime :=
  match readDate? s with
  | some (d, []) => some (.date d)
  | some (d, c :: s) =>
    if isTimeMark c then
      match readTime? s with
      | some (t, s) => (offset? s).map (.instant d t)
      | none => none
    else none
  | none =>
    match readTime? s with
    | some (t, []) => some (.time t)
    | _ => none

def Date.text (d : Date) : Text := padded 4 d.year ++ '-' :: padded 2 d.month ++ '-' :: padded 2 d.day

/-- The fraction is left out when it is zero and has no zeros at its end. -/
def Time.text (t : Time) : Text :=
  padded 2 t.hour ++ ':' :: padded 2 t.minute ++ ':' :: padded 2 t.second ++
    if t.nanosecond = 0 then []
    else '.' :: ((padded 9 t.nanosecond).reverse.dropWhile (· = '0')).reverse

def Offset.text : Offset → Text
  | .universal => ['Z']
  | .minutes east =>
    (if east < 0 then '-' else '+') ::
      padded 2 (east.natAbs / 60) ++ ':' :: padded 2 (east.natAbs % 60)

def Datetime.text : Datetime → Text
  | .date d => d.text
  | .time t => t.text
  | .instant d t o => d.text ++ 'T' :: t.text ++ (o.map Offset.text).getD []

end DeploymentRecords.Toml
