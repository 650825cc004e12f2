import Playground.Json.Parser

/-! Passing over a value without taking it in. -/

namespace Playground.Json

def skipExponent (c : Cursor) : Except Fault Cursor :=
  let after := c.advance 1
  let start := match after.rest with
    | '+' :: _ | '-' :: _ => after.advance 1
    | _ => after
  match start.rest with
  | [] => start.fault .invalidNumber
  | d :: _ =>
    if isAsciiDigit d then .ok (start.advance (digitsAhead start).length)
    else .error ⟨.invalidNumber, start.pos + 1⟩

def skipTail (c : Cursor) : Except Fault Cursor :=
  match c.rest with
  | 'e' :: _ | 'E' :: _ => skipExponent c
  | _ => .ok c

def skipFraction (c : Cursor) : Except Fault Cursor :=
  let after := c.advance 1
  let digits := digitsAhead after
  if digits.isEmpty then after.faultAhead .invalidNumber
  else skipTail (after.advance digits.length)

def skipNumber (c : Cursor) : Except Fault Cursor :=
  match c.rest with
  | [] => c.fault .invalidNumber
  | d :: _ =>
    if !isAsciiDigit d then .error ⟨.invalidNumber, c.pos + 1⟩
    else
      let after := c.advance (if d = '0' then 1 else (digitsAhead c).length)
      match after.rest with
      | '.' :: _ => skipFraction after
      | e :: _ =>
        if d = '0' && isAsciiDigit e then after.faultAhead .invalidNumber else skipTail after
      | [] => .ok after

def skipEscape (c : Cursor) : Except Fault Cursor :=
  match c.rest with
  | [] => c.fault .endInString
  | 'u' :: _ => (readUnit (c.advance 1)).map Prod.snd
  | d :: _ =>
    if d ∈ ['"', '\\', '/', 'b', 'f', 'n', 'r', 't'] then .ok (c.advance 1)
    else .error ⟨.invalidEscape, c.pos + 1⟩

/-- The rest of a string whose opening quote has been passed. `fuel` bounds its characters. -/
def skipString : Nat → Cursor → Except Fault Cursor
  | 0, c => c.fault .endInString
  | fuel + 1, c =>
    match c.rest with
    | [] => c.fault .endInString
    | '"' :: _ => .ok (c.advance 1)
    | '\\' :: _ => do skipString fuel (← skipEscape (c.advance 1))
    | d :: _ => if d.toNat < 0x20 then c.fault .controlCharacter else skipString fuel (c.advance 1)

def skipLiteral (c : Cursor) : Except Fault Cursor :=
  skipString (c.rest.length + 1) (c.advance 1)

inductive Bracket
  | list
  | object
  deriving DecidableEq, Repr

def skipKey (c : Cursor) : Except Fault Cursor :=
  let c := skipBlanks c
  match c.rest with
  | [] => c.faultAhead .endInObject
  | '"' :: _ => do readColon (← skipLiteral c)
  | _ => c.faultAhead .keyMustBeString

def Bracket.enter (b : Bracket) (c : Cursor) : Except Fault Cursor :=
  match b with
  | .list => .ok c
  | .object => skipKey c

/-- After the bracket that opens a list or object: its end, or its first item. -/
def Bracket.first (b : Bracket) (c : Cursor) : Except Fault After :=
  let c := skipBlanks c
  match b, c.rest with
  | .list, [] => c.faultAhead .endInList
  | .object, [] => c.faultAhead .endInObject
  | .list, ']' :: _ | .object, '}' :: _ => .ok (.stop (c.advance 1))
  | _, _ => (b.enter c).map .more

def Bracket.next (b : Bracket) (c : Cursor) : Except Fault After :=
  let c := skipBlanks c
  match b, c.rest with
  | .list, [] => c.faultAhead .endInList
  | .object, [] => c.faultAhead .endInObject
  | .list, ']' :: _ | .object, '}' :: _ => .ok (.stop (c.advance 1))
  | _, ',' :: _ => (b.enter (c.advance 1)).map .more
  | .list, _ => c.faultAhead .expectedListComma
  | .object, _ => c.faultAhead .expectedObjectComma

/-- Closes what ends after an item, the innermost first; none left means that the value is over. -/
def closeBrackets : List Bracket → Cursor → Except Fault (List Bracket × Cursor)
  | [], c => .ok ([], c)
  | b :: outer, c =>
    match b.next c with
    | .error fault => .error fault
    | .ok (.stop after) => closeBrackets outer after
    | .ok (.more after) => .ok (b :: outer, after)

def skipAtom (c : Cursor) : Except Fault Cursor :=
  match c.rest with
  | 'n' :: _ => readWord (c.advance 1) "ull".toList
  | 't' :: _ => readWord (c.advance 1) "rue".toList
  | 'f' :: _ => readWord (c.advance 1) "alse".toList
  | '-' :: _ => skipNumber (c.advance 1)
  | '"' :: _ => skipLiteral c
  | d :: _ => if isAsciiDigit d then skipNumber c else c.faultAhead .expectedValue
  | [] => c.faultAhead .endInValue

/-- Passes over values inside the open brackets until these are closed. `fuel` bounds the steps. -/
def skipInside : Nat → List Bracket → Cursor → Except Fault Cursor
  | 0, _, c => c.faultAhead .endInValue
  | fuel + 1, opened, c =>
    let c := skipBlanks c
    let opening : Option Bracket := match c.rest with
      | '[' :: _ => some .list
      | '{' :: _ => some .object
      | _ => none
    match opening with
    | some b =>
      match b.first (c.advance 1) with
      | .error fault => .error fault
      | .ok (.more after) => skipInside fuel (b :: opened) after
      | .ok (.stop after) => leave fuel opened after
    | none =>
      match skipAtom c with
      | .error fault => .error fault
      | .ok after => leave fuel opened after
where
  leave (fuel : Nat) (opened : List Bracket) (c : Cursor) : Except Fault Cursor :=
    match closeBrackets opened c with
    | .error fault => .error fault
    | .ok ([], after) => .ok after
    | .ok (b :: outer, after) => skipInside fuel (b :: outer) after

def skipValue (c : Cursor) : Except Fault Cursor := skipInside (stepsFor c) [] c

end Playground.Json
