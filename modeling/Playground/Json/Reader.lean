import Playground.Json.Printer
import Playground.Text.Offset

/-! Reading JSON text from the left. A fault is reported at a byte; lines and columns come later. -/

namespace Playground.Json

/-- What is left of a text, and how many bytes of it have been read. -/
structure Cursor where
  rest : List Char
  pos : Nat
  deriving DecidableEq, Repr

inductive Issue
  | expectedValue
  | expectedIdent
  | expectedColon
  | expectedListComma
  | expectedObjectComma
  | keyMustBeString
  | trailingComma
  | trailingCharacters
  | endInValue
  | endInObject
  | endInList
  | endInString
  | invalidNumber
  | numberOutOfRange
  | invalidEscape
  | loneSurrogate
  | unexpectedEndOfEscape
  | controlCharacter
  | tooDeep
  | invalidType (found expected : String)
  | invalidValue (found expected : String)
  | duplicateField (name : String)
  | missingField (name : String)
  | unknownVariant (tag : String)
  deriving DecidableEq, Repr

def Issue.message : Issue → String
  | expectedValue => "expected value"
  | expectedIdent => "expected ident"
  | expectedColon => "expected `:`"
  | expectedListComma => "expected `,` or `]`"
  | expectedObjectComma => "expected `,` or `\x7d`"
  | keyMustBeString => "key must be a string"
  | trailingComma => "trailing comma"
  | trailingCharacters => "trailing characters"
  | endInValue => "EOF while parsing a value"
  | endInObject => "EOF while parsing an object"
  | endInList => "EOF while parsing a list"
  | endInString => "EOF while parsing a string"
  | invalidNumber => "invalid number"
  | numberOutOfRange => "number out of range"
  | invalidEscape => "invalid escape"
  | loneSurrogate => "lone leading surrogate in hex escape"
  | unexpectedEndOfEscape => "unexpected end of hex escape"
  | controlCharacter => "control character (\\u0000-\\u001F) found while parsing a string"
  | tooDeep => "recursion limit exceeded"
  | invalidType found expected => "invalid type: " ++ found ++ ", expected " ++ expected
  | invalidValue found expected => "invalid value: " ++ found ++ ", expected " ++ expected
  | duplicateField name => "duplicate field `" ++ name ++ "`"
  | missingField name => "missing field `" ++ name ++ "`"
  | unknownVariant tag => "unknown variant `" ++ tag ++ "`"

/-- An issue and the number of bytes before the place it is reported at. -/
structure Fault where
  issue : Issue
  pos : Nat
  deriving DecidableEq, Repr

/-- The line, from 1, and the column, in bytes, of a place given by the bytes before it. -/
def lineColumn (cs : List Char) (pos : Nat) : Nat × Nat :=
  go cs 0 1 0
where
  /-- `at_` bytes are behind; the current line began at byte `lineStart`. -/
  go : List Char → Nat → Nat → Nat → Nat × Nat
    | [], _, line, lineStart => (line, pos - lineStart)
    | c :: rest, at_, line, lineStart =>
      if pos < at_ + c.utf8Size then (line, pos - lineStart)
      else if c = '\n' then go rest (at_ + 1) (line + 1) (at_ + 1)
      else go rest (at_ + c.utf8Size) line lineStart

def Fault.message (f : Fault) (text : String) : String :=
  let (line, column) := lineColumn text.toList f.pos
  f.issue.message ++ " at line " ++ toString line ++ " column " ++ toString column

namespace Cursor

def ofText (text : String) : Cursor := ⟨text.toList, 0⟩

def advance (c : Cursor) (n : Nat) : Cursor :=
  ⟨c.rest.drop n, c.pos + Text.size (c.rest.take n)⟩

def fault {α : Type} (c : Cursor) (issue : Issue) : Except Fault α := .error ⟨issue, c.pos⟩

def faultAhead {α : Type} (c : Cursor) (issue : Issue) : Except Fault α :=
  .error ⟨issue, if c.rest.isEmpty then c.pos else c.pos + 1⟩

end Cursor

def isJsonBlank (c : Char) : Bool := c == ' ' || c == '\n' || c == '\t' || c == '\r'

def skipBlanks (c : Cursor) : Cursor := c.advance (c.rest.takeWhile isJsonBlank).length

def readWord (c : Cursor) : List Char → Except Fault Cursor
  | [] => .ok c
  | expected :: more =>
    match c.rest with
    | [] => c.fault .endInValue
    | d :: _ =>
      if d = expected then readWord (c.advance 1) more
      else .error ⟨.expectedIdent, c.pos + 1⟩

def hexUnit? (cs : List Char) : Option Nat :=
  match cs with
  | [a, b, c, d] =>
    if isHexDigit a && isHexDigit b && isHexDigit c && isHexDigit d then
      some (((hexValue a * 16 + hexValue b) * 16 + hexValue c) * 16 + hexValue d)
    else none
  | _ => none

def readUnit (c : Cursor) : Except Fault (Nat × Cursor) :=
  match hexUnit? (c.rest.take 4) with
  | some n => .ok (n, c.advance 4)
  | none =>
    if 4 ≤ Text.size c.rest then .error ⟨.invalidEscape, c.pos + 4⟩
    else .error ⟨.endInString, c.pos + Text.size c.rest⟩

def isHighSurrogate (n : Nat) : Bool := 0xd800 ≤ n && n ≤ 0xdbff

def isLowSurrogate (n : Nat) : Bool := 0xdc00 ≤ n && n ≤ 0xdfff

def readLowSurrogate (high : Nat) (c : Cursor) : Except Fault (Char × Cursor) :=
  match c.rest with
  | [] => c.fault .endInString
  | '\\' :: [] => .error ⟨.endInString, c.pos + 1⟩
  | '\\' :: 'u' :: _ => do
    let (low, after) ← readUnit (c.advance 2)
    if isLowSurrogate low then
      return (Char.ofNat ((high - 0xd800) * 0x400 + (low - 0xdc00) + 0x10000), after)
    else after.fault .loneSurrogate
  | '\\' :: _ => .error ⟨.unexpectedEndOfEscape, c.pos + 2⟩
  | _ => .error ⟨.unexpectedEndOfEscape, c.pos + 1⟩

def readEscape (c : Cursor) : Except Fault (Char × Cursor) :=
  match c.rest with
  | [] => c.fault .endInString
  | d :: _ =>
    let after := c.advance 1
    if d = '"' || d = '\\' || d = '/' then .ok (d, after)
    else if d = 'b' then .ok ('\x08', after)
    else if d = 'f' then .ok ('\x0c', after)
    else if d = 'n' then .ok ('\n', after)
    else if d = 'r' then .ok ('\r', after)
    else if d = 't' then .ok ('\t', after)
    else if d = 'u' then do
      let (n, later) ← readUnit after
      if isLowSurrogate n then later.fault .loneSurrogate
      else if isHighSurrogate n then readLowSurrogate n later
      else return (Char.ofNat n, later)
    else .error ⟨.invalidEscape, c.pos + 1⟩

/-- The rest of a string whose opening quote has been read. `fuel` bounds its characters. -/
def readString : Nat → Cursor → Except Fault (List Char × Cursor)
  | 0, c => c.fault .endInString
  | fuel + 1, c =>
    match c.rest with
    | [] => c.fault .endInString
    | d :: _ =>
      let after := c.advance 1
      if d = '"' then .ok ([], after)
      else if d = '\\' then do
        let (e, later) ← readEscape after
        let (more, last) ← readString fuel later
        return (e :: more, last)
      else if d.toNat < 0x20 then after.fault .controlCharacter
      else do
        let (more, last) ← readString fuel after
        return (d :: more, last)

def readLiteral (c : Cursor) : Except Fault (String × Cursor) := do
  let after := c.advance 1
  let (cs, last) ← readString (after.rest.length + 1) after
  return (String.ofList cs, last)

def powerOfTen? (n : Nat) : Option Binary64 := if n ≤ 308 then Binary64.ofFraction? (Nat.pow 10 n) 1 else none

/-- A significand scaled by a power of ten: both rounded, then multiplied or divided. Exponents
below -308 are taken in steps. -/
def scaleByTen (fuel : Nat) (x : Binary64) (exponent : Int) : Option Binary64 :=
  match powerOfTen? exponent.natAbs with
  | some power => if 0 ≤ exponent then x.mul? power else x.div? power
  | none =>
    if x.significand = 0 then some x
    else if 0 ≤ exponent then none
    else
      match fuel, powerOfTen? 308 with
      | fuel + 1, some power => (x.div? power).bind fun y => scaleByTen fuel y (exponent + 308)
      | _, _ => some Binary64.zero

def doubleOf? (negative : Bool) (significand : Nat) (exponent : Int) : Option Binary64 := do
  let whole ← Binary64.ofFraction? significand 1
  let x ← scaleByTen 8 whole exponent
  return { x with negative := negative }

def wordLimit : Nat := Nat.pow 2 64

/-- The value of digits as long as it stays below 2^64, and the digits left out. -/
def takeDigits (value : Nat) : List Char → Nat × List Char
  | [] => (value, [])
  | d :: ds =>
    if value * 10 + (d.toNat - 48) < wordLimit then takeDigits (value * 10 + (d.toNat - 48)) ds
    else (value, d :: ds)

def finishDouble (negative : Bool) (significand : Nat) (exponent : Int) (c : Cursor) :
    Except Fault (Json × Cursor) :=
  match doubleOf? negative significand exponent with
  | some x => .ok (.float x, c)
  | none => c.fault .numberOutOfRange

def exponentLimit : Nat := Nat.pow 2 31

def digitsAhead (c : Cursor) : List Char := c.rest.takeWhile isAsciiDigit

def readExponentDigits (negative : Bool) (significand : Nat) (exponent : Int) (down : Bool)
    (c : Cursor) : Except Fault (Json × Cursor) :=
  match c.rest with
  | [] => c.fault .endInValue
  | d :: _ =>
    if !isAsciiDigit d then .error ⟨.invalidNumber, c.pos + 1⟩
    else
      let digits := digitsAhead c
      let value := digits.foldl (fun n d => n * 10 + (d.toNat - 48)) 0
      if value < exponentLimit then
        let shift : Int := if down then -(value : Int) else value
        finishDouble negative significand (exponent + shift) (c.advance digits.length)
      else if significand ≠ 0 ∧ !down then
        let counted := (List.range digits.length).find? fun n =>
          exponentLimit ≤ (digits.take (n + 1)).foldl (fun n d => n * 10 + (d.toNat - 48)) 0
        (c.advance ((counted.getD 0) + 1)).fault .numberOutOfRange
      else .ok (.float { Binary64.zero with negative := negative }, c.advance digits.length)

def readExponent (negative : Bool) (significand : Nat) (exponent : Int) (c : Cursor) :
    Except Fault (Json × Cursor) :=
  let after := c.advance 1
  match after.rest with
  | '+' :: _ => readExponentDigits negative significand exponent false (after.advance 1)
  | '-' :: _ => readExponentDigits negative significand exponent true (after.advance 1)
  | _ => readExponentDigits negative significand exponent false after

def readTail (negative : Bool) (significand : Nat) (exponent : Int) (c : Cursor) : Except Fault (Json × Cursor) :=
  match c.rest with
  | 'e' :: _ | 'E' :: _ => readExponent negative significand exponent c
  | _ => finishDouble negative significand exponent c

/-- A fraction, from its point on. Digits that no longer fit below 2^64 are dropped. -/
def readFraction (negative : Bool) (significand : Nat) (exponent : Int) (c : Cursor) :
    Except Fault (Json × Cursor) :=
  let after := c.advance 1
  let digits := digitsAhead after
  let (value, left) := takeDigits significand digits
  let used := digits.length - left.length
  let end_ := after.advance digits.length
  if digits.isEmpty then
    match after.rest with
    | [] => after.faultAhead .endInValue
    | _ => after.faultAhead .invalidNumber
  else readTail negative value (exponent - used) end_

/-- The value of a whole number, when it is one that JSON values hold exactly. -/
def wholeNumber? (negative : Bool) (value : Nat) : Option Int :=
  if !negative then some value
  else if value = 0 ∨ Nat.pow 2 63 < value then none
  else some (-(value : Int))

def readNumber (negative : Bool) (c : Cursor) : Except Fault (Json × Cursor) :=
  match c.rest with
  | [] => c.fault .endInValue
  | d :: _ =>
    if !isAsciiDigit d then .error ⟨.invalidNumber, c.pos + 1⟩
    else
      let digits := if d = '0' then ['0'] else digitsAhead c
      let end_ := c.advance digits.length
      let (value, left) := takeDigits 0 digits
      let exponent : Int := left.length
      match end_.rest with
      | '.' :: _ => readFraction negative value exponent end_
      | 'e' :: _ | 'E' :: _ => readExponent negative value exponent end_
      | e :: _ =>
        if d = '0' && isAsciiDigit e then end_.faultAhead .invalidNumber
        else plain value left end_
      | [] => plain value left end_
where
  plain (value : Nat) (left : List Char) (end_ : Cursor) : Except Fault (Json × Cursor) :=
    match left, wholeNumber? negative value with
    | [], some n => .ok (.int n, end_)
    | _, _ => finishDouble negative value left.length end_

end Playground.Json
