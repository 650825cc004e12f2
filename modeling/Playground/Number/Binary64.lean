/-! Finite double-precision numbers, exactly: a sign, a significand below 2^53, a power of two. -/

namespace Playground

structure Binary64 where
  negative : Bool
  significand : Nat
  exponent : Int
  deriving DecidableEq, Repr

namespace Binary64

def leastExponent : Int := -1074

def greatestExponent : Int := 971

def zero : Binary64 := ⟨false, 0, leastExponent⟩

def roundHalfEven (num den : Nat) : Nat :=
  let q := num / den
  let r := num % den
  if 2 * r < den then q
  else if den < 2 * r then q + 1
  else if q % 2 = 0 then q else q + 1

def scaled (num den : Nat) (e : Int) : Nat × Nat :=
  match e with
  | .ofNat n => (num, den * Nat.pow 2 n)
  | .negSucc n => (num * Nat.pow 2 (n + 1), den)

def exponentOf (num den : Nat) : Int :=
  let guess : Int := (num.log2 : Int) - (den.log2 : Int) - 52
  let (n, d) := scaled num den guess
  if n < d * Nat.pow 2 52 then guess - 1 else guess

/-- The nearest double of a non-negative fraction; none when it is too large for one. -/
def ofFraction? (num den : Nat) : Option Binary64 :=
  if num = 0 then some zero
  else
    let e := max (exponentOf num den) leastExponent
    let (n, d) := scaled num den e
    let m := roundHalfEven n d
    let (m, e) := if m = Nat.pow 2 53 then (Nat.pow 2 52, e + 1) else (m, e)
    if greatestExponent < e then none else some ⟨false, m, e⟩

def toFraction (x : Binary64) : Nat × Nat :=
  match x.exponent with
  | .ofNat n => (x.significand * Nat.pow 2 n, 1)
  | .negSucc n => (x.significand, Nat.pow 2 (n + 1))

def mul? (x y : Binary64) : Option Binary64 :=
  let (a, b) := x.toFraction
  let (c, d) := y.toFraction
  ofFraction? (a * c) (b * d)

/-- The rounded quotient of two non-negative numbers, the second one positive. -/
def div? (x y : Binary64) : Option Binary64 :=
  let (a, b) := x.toFraction
  let (c, d) := y.toFraction
  ofFraction? (a * d) (b * c)

end Binary64

end Playground
