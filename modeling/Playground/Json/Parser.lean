import Playground.Json.Reader
import Playground.Text.Debug

/-! Whole JSON values from text, nested at most 127 deep. -/

namespace Playground.Json

/-- How many brackets deep a value may be, counted from 1. -/
def depthLimit : Nat := 128

/-- What comes after an item of a list or object: the end, or a comma. -/
inductive After
  | stop (c : Cursor)
  | more (c : Cursor)

def afterItem (c : Cursor) : Except Fault After :=
  let c := skipBlanks c
  match c.rest with
  | [] => c.faultAhead .endInList
  | ']' :: _ => .ok (.stop (c.advance 1))
  | ',' :: _ =>
    let d := skipBlanks (c.advance 1)
    match d.rest with
    | [] => d.faultAhead .endInValue
    | ']' :: _ => d.faultAhead .trailingComma
    | _ => .ok (.more d)
  | _ => c.faultAhead .expectedListComma

def beforeItem (c : Cursor) : Except Fault After :=
  let c := skipBlanks c
  match c.rest with
  | [] => c.faultAhead .endInList
  | ']' :: _ => .ok (.stop (c.advance 1))
  | _ => .ok (.more c)

def afterField (c : Cursor) : Except Fault After :=
  let c := skipBlanks c
  match c.rest with
  | [] => c.faultAhead .endInObject
  | '}' :: _ => .ok (.stop (c.advance 1))
  | ',' :: _ =>
    let d := skipBlanks (c.advance 1)
    match d.rest with
    | [] => d.faultAhead .endInValue
    | '}' :: _ => d.faultAhead .trailingComma
    | '"' :: _ => .ok (.more d)
    | _ => d.faultAhead .keyMustBeString
  | _ => c.faultAhead .expectedObjectComma

def beforeField (c : Cursor) : Except Fault After :=
  let c := skipBlanks c
  match c.rest with
  | [] => c.faultAhead .endInObject
  | '}' :: _ => .ok (.stop (c.advance 1))
  | '"' :: _ => .ok (.more c)
  | _ => c.faultAhead .keyMustBeString

def readColon (c : Cursor) : Except Fault Cursor :=
  let c := skipBlanks c
  match c.rest with
  | [] => c.faultAhead .endInObject
  | ':' :: _ => .ok (c.advance 1)
  | _ => c.faultAhead .expectedColon

def readAtom (d : Char) (c : Cursor) : Except Fault (Json × Cursor) :=
  let after := c.advance 1
  if d = 'n' then (readWord after "ull".toList).map fun c => (.null, c)
  else if d = 't' then (readWord after "rue".toList).map fun c => (.bool true, c)
  else if d = 'f' then (readWord after "alse".toList).map fun c => (.bool false, c)
  else if d = '-' then readNumber true after
  else if isAsciiDigit d then readNumber false c
  else if d = '"' then (readLiteral c).map fun (s, c) => (.str s, c)
  else c.faultAhead .expectedValue

mutual

/-- The next value, with every pair of its objects. `fuel` bounds the steps and `depth` the
brackets that may still open. -/
def readValue : Nat → Nat → Cursor → Except Fault (Json × Cursor)
  | 0, _, c => c.faultAhead .endInValue
  | fuel + 1, depth, c =>
    let c := skipBlanks c
    match c.rest with
    | [] => c.faultAhead .endInValue
    | d :: _ =>
      if d = '[' then
        if depth ≤ 1 then c.faultAhead .tooDeep
        else
          match beforeItem (c.advance 1) with
          | .error fault => .error fault
          | .ok (.stop after) => .ok (.arr [], after)
          | .ok (.more after) =>
            (readItems fuel (depth - 1) after).map fun (items, c) => (.arr items, c)
      else if d = '{' then
        if depth ≤ 1 then c.faultAhead .tooDeep
        else
          match beforeField (c.advance 1) with
          | .error fault => .error fault
          | .ok (.stop after) => .ok (.obj [], after)
          | .ok (.more after) =>
            (readFields fuel (depth - 1) after).map fun (fields, c) => (.obj fields, c)
      else readAtom d c

def readItems : Nat → Nat → Cursor → Except Fault (List Json × Cursor)
  | 0, _, c => c.faultAhead .endInList
  | fuel + 1, depth, c =>
    match readValue fuel depth c with
    | .error fault => .error fault
    | .ok (item, after) =>
      match afterItem after with
      | .error fault => .error fault
      | .ok (.stop later) => .ok ([item], later)
      | .ok (.more later) =>
        (readItems fuel depth later).map fun (items, c) => (item :: items, c)

def readFields : Nat → Nat → Cursor → Except Fault (List (String × Json) × Cursor)
  | 0, _, c => c.faultAhead .endInObject
  | fuel + 1, depth, c =>
    match readLiteral c with
    | .error fault => .error fault
    | .ok (key, after) =>
      match readColon after with
      | .error fault => .error fault
      | .ok start =>
        match readValue fuel depth start with
        | .error fault => .error fault
        | .ok (value, rest) =>
          match afterField rest with
          | .error fault => .error fault
          | .ok (.stop later) => .ok ([(key, value)], later)
          | .ok (.more later) =>
            (readFields fuel depth later).map fun (fields, c) => ((key, value) :: fields, c)

end

def stepsFor (c : Cursor) : Nat := 2 * c.rest.length + 2

def readEnd (c : Cursor) : Except Fault Unit :=
  let c := skipBlanks c
  if c.rest.isEmpty then .ok () else c.faultAhead .trailingCharacters

def parseTree (text : String) : Except Fault Json := do
  let start := Cursor.ofText text
  let (value, after) ← readValue (stepsFor start) depthLimit start
  readEnd after
  return value

def parse (text : String) : Except Fault Json := (parseTree text).map collapse

def foundNumber : Json → String
  | .int n => "integer `" ++ toString n ++ "`"
  | .float x => "floating point `" ++ NumberLayout.json.text x ++ "`"
  | _ => ""

def found : Json → String
  | .null => "null"
  | .bool b => "boolean `" ++ (if b then "true" else "false") ++ "`"
  | .str s => "string " ++ Debug.text s
  | .arr _ => "sequence"
  | .obj _ => "map"
  | number => foundNumber number

/-- The fault of a value that is not of the expected kind: it is read, unless it is a list or an
object, and named. -/
def refuse {α : Type} (expected : String) (c : Cursor) : Except Fault α :=
  match c.rest with
  | [] => c.faultAhead .endInValue
  | '[' :: _ => c.fault (.invalidType "sequence" expected)
  | '{' :: _ => c.fault (.invalidType "map" expected)
  | d :: _ =>
    match readAtom d c with
    | .error fault => .error fault
    | .ok (value, after) => after.fault (.invalidType (found value) expected)

def readStringValue (c : Cursor) : Except Fault (String × Cursor) :=
  let c := skipBlanks c
  match c.rest with
  | '"' :: _ => readLiteral c
  | _ => refuse "a string" c

def readBoolValue (c : Cursor) : Except Fault (Bool × Cursor) :=
  let c := skipBlanks c
  match c.rest with
  | 't' :: _ => (readWord (c.advance 1) "rue".toList).map fun c => (true, c)
  | 'f' :: _ => (readWord (c.advance 1) "alse".toList).map fun c => (false, c)
  | _ => refuse "a boolean" c

def readNull (c : Cursor) : Except Fault Cursor :=
  let c := skipBlanks c
  match c.rest with
  | 'n' :: _ => readWord (c.advance 1) "ull".toList
  | _ => refuse "unit" c

def readNaturalValue (c : Cursor) : Except Fault (Nat × Cursor) :=
  let c := skipBlanks c
  match c.rest with
  | d :: _ =>
    if d = '-' || isAsciiDigit d then
      match (if d = '-' then readNumber true (c.advance 1) else readNumber false c) with
      | .error fault => .error fault
      | .ok (value, after) =>
        match value with
        | .int (.ofNat n) => .ok (n, after)
        | .int n => after.fault (.invalidValue (foundNumber (.int n)) "u64")
        | number => after.fault (.invalidType (foundNumber number) "u64")
    else refuse "u64" c
  | [] => refuse "u64" c

end Playground.Json
