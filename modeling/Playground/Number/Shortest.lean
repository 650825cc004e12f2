import Playground.Number.Binary64

/-! The fewest decimal digits that read back as a given double, and the layouts they are written
in. -/

namespace Playground

structure Decimal where
  digits : Nat
  power : Int
  deriving DecidableEq, Repr

def Decimal.normalize (d : Decimal) : Nat → Decimal
  | 0 => d
  | bound + 1 =>
    if d.digits % 10 = 0 ∧ d.digits ≠ 0 then Decimal.normalize ⟨d.digits / 10, d.power + 1⟩ bound
    else d

namespace Binary64

/-- The interval of fractions that round to a positive double, over one denominator: its value, its
two ends, and whether the ends belong to it. -/
structure Interval where
  value : Nat
  low : Nat
  high : Nat
  den : Nat
  closed : Bool
  deriving DecidableEq, Repr

def interval (x : Binary64) : Interval :=
  let quarter : Nat × Nat := Binary64.toFraction ⟨false, 1, x.exponent - 2⟩
  let below : Nat :=
    if x.significand = Nat.pow 2 52 ∧ leastExponent < x.exponent then 1 else 2
  { value := 4 * x.significand * quarter.1
    low := (4 * x.significand - below) * quarter.1
    high := (4 * x.significand + 2) * quarter.1
    den := quarter.2
    closed := x.significand % 2 == 0 }

def Interval.contains (i : Interval) (d : Decimal) : Bool :=
  let (n, den) : Nat × Nat := match d.power with
    | .ofNat k => (d.digits * Nat.pow 10 k, 1)
    | .negSucc k => (d.digits, Nat.pow 10 (k + 1))
  let scaled := n * i.den
  if i.closed then i.low * den ≤ scaled && scaled ≤ i.high * den
  else i.low * den < scaled && scaled < i.high * den

/-- How many zeros follow the point of a positive fraction below 1, up to a bound. -/
def leadingZeros (num den : Nat) : Nat → Nat
  | 0 => 0
  | bound + 1 => if den ≤ num * 10 then 0 else leadingZeros (num * 10) den bound + 1

/-- The `e` for which a positive fraction lies from `10 ^ (e - 1)` up to `10 ^ e`. -/
def decimalExponent (num den : Nat) : Int :=
  if den ≤ num then ((Nat.toDigits 10 (num / den)).length : Int)
  else -(leadingZeros num den 400 : Int)

def Interval.onGrid (i : Interval) (count : Nat) : Option Decimal :=
  let power := decimalExponent i.value i.den - (count : Int)
  let (n, d) : Nat × Nat := match power with
    | .ofNat k => (i.value, i.den * Nat.pow 10 k)
    | .negSucc k => (i.value * Nat.pow 10 (k + 1), i.den)
  let lower : Decimal := ⟨n / d, power⟩
  let upper : Decimal := ⟨n / d + 1, power⟩
  let remainder := n % d
  let nearer := if 2 * remainder < d then lower
    else if d < 2 * remainder then upper
    else if lower.digits % 2 = 0 then lower else upper
  let farther := if nearer = lower then upper else lower
  if i.contains nearer then some nearer
  else if i.contains farther then some farther
  else none

def shortest (x : Binary64) : Decimal :=
  let i := x.interval
  (((List.range 17).findSome? fun count => i.onGrid (count + 1)).getD ⟨0, 0⟩).normalize 20

end Binary64

structure NumberLayout where
  /-- The greatest number of digits before the point, without an exponent. -/
  mostDigits : Option Nat
  /-- The greatest number of zeros after the point, without an exponent. -/
  mostZeros : Option Nat
  plusInExponent : Bool
  deriving DecidableEq, Repr

namespace NumberLayout

def json : NumberLayout := ⟨some 16, some 4, true⟩

def debug : NumberLayout := ⟨some 16, some 3, false⟩

def positional : NumberLayout := ⟨none, none, false⟩

def zeros (n : Nat) : List Char := List.replicate n '0'

/-- Digits with the point after the first `whole` of them; `.0` when all of them stand before. -/
def positionalText (digits : List Char) (whole : Int) : List Char :=
  match whole with
  | .ofNat n =>
    if n = 0 then '0' :: '.' :: digits
    else if digits.length ≤ n then digits ++ zeros (n - digits.length) ++ ['.', '0']
    else digits.take n ++ '.' :: digits.drop n
  | .negSucc n => '0' :: '.' :: zeros (n + 1) ++ digits

def exponentText (layout : NumberLayout) (digits : List Char) (exponent : Int) : List Char :=
  let mantissa := match digits with
    | [] => ['0']
    | [d] => [d]
    | d :: more => d :: '.' :: more
  let sign := match exponent with
    | .ofNat _ => if layout.plusInExponent then ['+'] else []
    | .negSucc _ => ['-']
  mantissa ++ 'e' :: sign ++ Nat.toDigits 10 exponent.natAbs

def fits (layout : NumberLayout) (whole : Int) : Bool :=
  match whole with
  | .ofNat n => match layout.mostDigits with
    | some most => n ≤ most
    | none => true
  | .negSucc n => match layout.mostZeros with
    | some most => n + 1 ≤ most
    | none => true

def text (layout : NumberLayout) (x : Binary64) : String :=
  let sign := if x.negative then ['-'] else []
  if x.significand = 0 then String.ofList (sign ++ ['0', '.', '0'])
  else
    let d := x.shortest
    let digits := Nat.toDigits 10 d.digits
    let whole := (digits.length : Int) + d.power
    String.ofList (sign ++
      if layout.fits whole then positionalText digits whole
      else exponentText layout digits (whole - 1))

end NumberLayout

end Playground
