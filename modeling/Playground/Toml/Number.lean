import Playground.Json.Basic
import Playground.Toml.Text

/-! Numbers of TOML: whole ones of 64 bits, and doubles rounded exactly. -/

namespace Playground.Toml

def readDigits (isDigit : Char → Bool) : Reader (List Char) := fun cs =>
  match cs with
  | c :: rest => if isDigit c then some (c :: (more rest).1, (more rest).2) else none
  | [] => none
where
  more : List Char → List Char × List Char
    | '_' :: d :: rest =>
      if isDigit d then let (ds, after) := more rest; (d :: ds, after) else ([], '_' :: d :: rest)
    | c :: rest =>
      if isDigit c then let (ds, after) := more rest; (c :: ds, after) else ([], c :: rest)
    | [] => ([], [])

def valueOf (base : Nat) (digits : List Char) : Nat :=
  digits.foldl (fun n d => n * base + hexValue d) 0

def whole? (n : Int) : Option Json := if -(Nat.pow 2 63 : Int) ≤ n ∧ n < Nat.pow 2 63 then some (.int n) else none

def readBased (base : Nat) (isDigit : Char → Bool) : Reader Json := fun cs => do
  let (digits, rest) ← readDigits isDigit cs
  return (← whole? (valueOf base digits), rest)

def isOctalDigit (c : Char) : Bool := '0' ≤ c && c ≤ '7'

def isBinaryDigit (c : Char) : Bool := c == '0' || c == '1'

def readWholeDigits : Reader (List Char) := fun cs =>
  match cs with
  | '0' :: rest => some (['0'], rest)
  | cs => readDigits isAsciiDigit cs

def readSign : List Char → Bool × List Char
  | '+' :: rest => (false, rest)
  | '-' :: rest => (true, rest)
  | cs => (false, cs)

def readExponent : Reader Int := fun cs => do
  let (down, rest) := readSign cs
  let (digits, rest) ← readDigits isAsciiDigit rest
  let n : Int := valueOf 10 digits
  return (if down then -n else n, rest)

def readFraction (cs : List Char) : Option ((List Char × Int) × List Char) := do
  let (digits, rest) ← match cs with
    | '.' :: rest => readDigits isAsciiDigit rest
    | rest => some ([], rest)
  match rest with
  | 'e' :: rest | 'E' :: rest => do
    let (exponent, rest) ← readExponent rest
    return ((digits, exponent), rest)
  | rest => return ((digits, 0), rest)

/-- The double nearest to `significand * 10 ^ power`; none when it is too large for one. -/
def double? (negative : Bool) (significand : Nat) (power : Int) : Option Binary64 :=
  let size : Int := (Nat.toDigits 10 significand).length
  let magnitude :=
    if significand = 0 then some Binary64.zero
    else if 400 < size + power then none
    else if size + power < -400 then some Binary64.zero
    else
      match power with
      | .ofNat n => Binary64.ofFraction? (significand * Nat.pow 10 n) 1
      | .negSucc n => Binary64.ofFraction? significand (Nat.pow 10 (n + 1))
  magnitude.map fun x => { x with negative := negative }

/-- A decimal number; one with a point or an exponent is a double. Too large a double is refused,
and one too far below zero is infinite, for which there is no JSON value. -/
def readDecimal (cs : List Char) : Option (Json × List Char) := do
  let (negative, rest) := readSign cs
  let (digits, rest) ← readWholeDigits rest
  match rest with
  | '.' :: _ | 'e' :: _ | 'E' :: _ => do
    let ((fraction, exponent), rest) ← readFraction rest
    match double? negative (valueOf 10 (digits ++ fraction)) (exponent - fraction.length) with
    | some x => return (.float x, rest)
    | none => if negative then return (.null, rest) else none
  | rest =>
    let n : Int := valueOf 10 digits
    return (← whole? (if negative then -n else n), rest)

/-- A number. Infinite ones and those that are none have no JSON value and are null. -/
def readNumber (cs : List Char) : Option (Json × List Char) :=
  match cs with
  | '0' :: 'x' :: rest => readBased 16 isHexDigit rest
  | '0' :: 'o' :: rest => readBased 8 isOctalDigit rest
  | '0' :: 'b' :: rest => readBased 2 isBinaryDigit rest
  | cs =>
    let (_, unsigned) := readSign cs
    match Text.dropLead? "inf".toList unsigned, Text.dropLead? "nan".toList unsigned with
    | some rest, _ | none, some rest => some (.null, rest)
    | none, none => readDecimal cs

end Playground.Toml
