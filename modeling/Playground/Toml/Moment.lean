import Playground.Json.Basic
import Playground.Toml.Text

/-! Dates and times, which have no JSON form of their own: they become an object with one field. -/

namespace Playground.Toml

def readBounded (count low high : Nat) : Reader Nat := fun cs =>
  let digits := cs.take count
  if digits.length = count ∧ digits.all isAsciiDigit then
    let n := digits.foldl (fun n d => n * 10 + (d.toNat - 48)) 0
    if low ≤ n ∧ n ≤ high then some (n, cs.drop count) else none
  else none

def expect (c : Char) : List Char → Option (List Char)
  | d :: rest => if c = d then some rest else none
  | [] => none

def padded (count n : Nat) : String :=
  let digits := Nat.toDigits 10 n
  String.ofList (List.replicate (count - digits.length) '0' ++ digits)

def daysIn (year month : Nat) : Nat :=
  if month = 2 then
    if year % 4 = 0 ∧ (year % 100 ≠ 0 ∨ year % 400 = 0) then 29 else 28
  else if month ∈ [4, 6, 9, 11] then 30
  else 31

def readDate : Reader String := fun cs => do
  let (year, rest) ← readBounded 4 0 9999 cs
  let (month, rest) ← readBounded 2 1 12 (← expect '-' rest)
  let (day, rest) ← readBounded 2 1 (daysIn year month) (← expect '-' rest)
  return (padded 4 year ++ "-" ++ padded 2 month ++ "-" ++ padded 2 day, rest)

def fractionText (digits : List Char) : String :=
  let kept := ((digits.take 9).reverse.dropWhile (· == '0')).reverse
  if kept.isEmpty then "" else "." ++ String.ofList kept

def readTime : Reader String := fun cs => do
  let (hour, rest) ← readBounded 2 0 23 cs
  let (minute, rest) ← readBounded 2 0 59 (← expect ':' rest)
  let (second, rest) ← readBounded 2 0 60 (← expect ':' rest)
  let text := padded 2 hour ++ ":" ++ padded 2 minute ++ ":" ++ padded 2 second
  match rest with
  | '.' :: d :: rest =>
    if isAsciiDigit d then
      let digits := (d :: rest).takeWhile isAsciiDigit
      return (text ++ fractionText digits, (d :: rest).drop digits.length)
    else return (text, '.' :: d :: rest)
  | rest => return (text, rest)

def readOffset : Reader String
  | 'Z' :: rest | 'z' :: rest => some ("Z", rest)
  | sign :: rest => do
    if sign = '+' ∨ sign = '-' then
      let (hour, rest) ← readBounded 2 0 23 rest
      let (minute, rest) ← readBounded 2 0 59 (← expect ':' rest)
      let shown := if hour = 0 ∧ minute = 0 then "+" else String.singleton sign
      return (shown ++ padded 2 hour ++ ":" ++ padded 2 minute, rest)
    else none
  | [] => none

def readTimeAfterDate (date : String) (cs : List Char) : Option (String × List Char) :=
  match cs with
  | d :: rest =>
    if d = 'T' ∨ d = 't' ∨ d = ' ' then
      match readTime rest with
      | some (time, rest) =>
        match readOffset rest with
        | some (offset, rest) => some (date ++ "T" ++ time ++ offset, rest)
        | none => some (date ++ "T" ++ time, rest)
      | none => some (date, cs)
    else some (date, cs)
  | [] => some (date, cs)

def readMoment : Reader Json := fun cs => do
  let (text, rest) ← match readDate cs with
    | some (date, rest) => readTimeAfterDate date rest
    | none => readTime cs
  return (.obj [("$__toml_private_datetime", .str text)], rest)

end Playground.Toml
