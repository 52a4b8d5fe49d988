import DeploymentRecords.Number.Digits

/-!
# Binary floating point

Numbers of the IEEE 754 format binary64, held exactly. A decimal numeral is read to the nearest
of them, ties to the even significand; a number is written with the fewest digits that read back,
and of those the digits nearest to it, in positional notation with at least one decimal.
-/

namespace DeploymentRecords.Number

/-- `finite negative m e` is `m * 2 ^ e` with its sign, where `m < 2 ^ 53`, `-1074 ≤ e ≤ 971`, and
`2 ^ 52 ≤ m` unless `e = -1074`. -/
inductive Binary64 where
  | nan
  | infinite (negative : Bool)
  | finite (negative : Bool) (significand : Nat) (exponent : Int)
  deriving DecidableEq, Repr

/-- A quotient rounded to the nearest integer, a half to the even one. -/
def roundHalfEven (num den : Nat) : Nat :=
  let q := num / den
  let r := num % den
  if 2 * r < den then q
  else if den < 2 * r then q + 1
  else if q % 2 = 0 then q else q + 1

/-- The greatest `k` with `2 ^ k ≤ num / den`, for a positive quotient. -/
def floorLog2 (num den : Nat) : Int :=
  let guess : Int := (Nat.log2 num : Int) - Nat.log2 den
  let reached := if 0 ≤ guess then den * Nat.pow 2 guess.toNat ≤ num else den ≤ num * Nat.pow 2 (-guess).toNat
  if reached then guess else guess - 1

def floorLog10 (num den : Nat) : Int :=
  if den ≤ num then ((decimal (num / den)).length : Int) - 1
  else
    let k := (decimal (den / num)).length
    if den ≤ num * Nat.pow 10 (k - 1) then 1 - (k : Int) else -(k : Int)

namespace Binary64

def leastExponent : Int := -1074
def greatestExponent : Int := 971

/-- The number nearest to `num / den`; infinity from half a unit above the greatest. -/
def ofQuotient (negative : Bool) (num den : Nat) : Binary64 :=
  if num = 0 then .finite negative 0 leastExponent
  else
    let e := max (floorLog2 num den - 52) leastExponent
    let m :=
      if 0 ≤ e then roundHalfEven num (den * Nat.pow 2 e.toNat)
      else roundHalfEven (num * Nat.pow 2 (-e).toNat) den
    let (m, e) := if m = Nat.pow 2 53 then (Nat.pow 2 52, e + 1) else (m, e)
    if greatestExponent < e then .infinite negative else .finite negative m e

/-- The number nearest to `digits * 10 ^ scale`. Numbers of more than 310 integer digits are
infinite and numbers below `10 ^ -330` zero, whatever their digits. -/
def ofDecimal (negative : Bool) (digits : Nat) (scale : Int) : Binary64 :=
  let width : Int := (decimal digits).length + scale
  if digits = 0 ∨ width < -330 then .finite negative 0 leastExponent
  else if 310 < width then .infinite negative
  else if 0 ≤ scale then ofQuotient negative (digits * Nat.pow 10 scale.toNat) 1
  else ofQuotient negative digits (Nat.pow 10 (-scale).toNat)

structure Interval where
  value : Nat
  low : Nat
  high : Nat
  den : Nat
  closed : Bool

/-- The reals that round to `m * 2 ^ e`; the ends do so iff `m` is even. The gap below a power of
two is half as wide as the gap above. -/
def rounding (m : Nat) (e : Int) : Interval :=
  let scale := Nat.pow 2 (e - 2).toNat
  let below := if m = Nat.pow 2 52 ∧ leastExponent < e then 1 else 2
  { value := 4 * m * scale
    low := (4 * m - below) * scale
    high := (4 * m + 2) * scale
    den := Nat.pow 2 (2 - e).toNat
    closed := m % 2 = 0 }

def Interval.holds (i : Interval) (n : Nat) (u : Int) : Bool :=
  let x := n * Nat.pow 10 u.toNat * i.den
  let unit := Nat.pow 10 (-u).toNat
  if i.closed then i.low * unit ≤ x && x ≤ i.high * unit else i.low * unit < x && x < i.high * unit

/-- The nearest neighbour of the value among the multiples of `10 ^ u` in the interval, the upper
one in the middle. -/
def Interval.nearest? (i : Interval) (u : Int) : Option Nat :=
  let num := i.value * Nat.pow 10 (-u).toNat
  let den := i.den * Nat.pow 10 u.toNat
  let n := num / den
  match i.holds n u, i.holds (n + 1) u with
  | true, true => some (if 2 * (num % den) < den then n else n + 1)
  | true, false => some n
  | false, true => some (n + 1)
  | false, false => none

/-- The first grid `10 ^ top`, `10 ^ (top - 1)`, … with a multiple in the interval. -/
def Interval.shortest (i : Interval) (top : Int) : Nat → Nat × Int
  | 0 => (((i.nearest? top).getD 0), top)
  | tries + 1 =>
    match i.nearest? top with
    | some n => (n, top)
    | none => i.shortest (top - 1) tries

def positional (n : Nat) (u : Int) : Text :=
  let digits := decimal n
  if 0 ≤ u then digits ++ List.replicate u.toNat '0' ++ ['.', '0']
  else
    let places := (-u).toNat
    let digits := List.replicate (places + 1 - digits.length) '0' ++ digits
    digits.take (digits.length - places) ++ '.' :: digits.drop (digits.length - places)

/-- The search begins one place above the leading digit, since a number just below a power of ten
may round to it; seventeen digits always read back. -/
def text : Binary64 → Text
  | nan => ['n', 'a', 'n']
  | infinite negative => (if negative then ['-'] else []) ++ ['i', 'n', 'f']
  | finite negative m e =>
    (if negative then ['-'] else []) ++
      if m = 0 then ['0', '.', '0']
      else
        let i := rounding m e
        let (n, u) := i.shortest (floorLog10 i.value i.den + 1) 17
        positional n u

end Binary64

end DeploymentRecords.Number
