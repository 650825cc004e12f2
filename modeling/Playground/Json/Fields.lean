import Playground.Json.Skip

/-! Records from text, one field after the other. -/

namespace Playground.Json

abbrev FieldReader (σ : Type) := String → σ → Cursor → Except Fault (σ × Cursor)

/-- The fault of a field that is given again. It is told where the key ends or, when only blanks
stand between, past the bracket that closes the object. -/
def repeatedField {α : Type} (name : String) (c : Cursor) : Except Fault α :=
  let c := skipBlanks c
  match c.rest with
  | '}' :: _ => (c.advance 1).fault (.duplicateField name)
  | _ => c.fault (.duplicateField name)

/-- The fields of an object from the first key on; answers also with the names that were given. -/
def readNamed {σ : Type} (names : List String) (read : FieldReader σ) :
    Nat → List String → σ → Cursor → Except Fault (σ × List String × Cursor)
  | 0, _, _, c => c.faultAhead .endInObject
  | fuel + 1, given, state, c => do
    let (key, after) ← readLiteral c
    let (state, given, rest) ←
      if key ∈ given then repeatedField key after
      else if key ∈ names then do
        let (state, rest) ← read key state (← readColon after)
        pure (state, key :: given, rest)
      else do
        let rest ← skipValue (← readColon after)
        pure (state, given, rest)
    match ← afterField rest with
    | .stop later => return (state, given, later)
    | .more later => readNamed names read fuel given state later

def closeList (c : Cursor) : Except Fault Cursor :=
  let c := skipBlanks c
  match c.rest with
  | [] => c.faultAhead .endInList
  | ']' :: _ => .ok (c.advance 1)
  | ',' :: _ =>
    let d := skipBlanks (c.advance 1)
    match d.rest with
    | ']' :: _ => d.faultAhead .trailingComma
    | _ => d.faultAhead .trailingCharacters
  | _ => c.faultAhead .trailingCharacters

/-- The fields of a record written as a list, which may be shorter than `names`. -/
def readOrdered {σ : Type} (read : FieldReader σ) :
    List String → List String → σ → Cursor → Except Fault (σ × List String × Cursor)
  | given, [], state, c => do return (state, given, ← closeList c)
  | given, name :: names, state, c => do
    match ← (if given.isEmpty then beforeItem c else afterItem c) with
    | .stop later => return (state, given, later)
    | .more later =>
      let (state, rest) ← read name state later
      readOrdered read (name :: given) names state rest

/-- A record; answers also with the names of the fields that were given. A bracket may open while
`depth` is above 1. -/
def readRecord {σ : Type} (expected : String) (depth : Nat) (names : List String)
    (read : FieldReader σ) (start : σ) (c : Cursor) : Except Fault (σ × List String × Cursor) :=
  let c := skipBlanks c
  match c.rest with
  | '[' :: _ =>
    if depth ≤ 1 then c.faultAhead .tooDeep else readOrdered read [] names start (c.advance 1)
  | '{' :: _ =>
    if depth ≤ 1 then c.faultAhead .tooDeep
    else
      match beforeField (c.advance 1) with
      | .error fault => .error fault
      | .ok (.stop after) => .ok (start, [], after)
      | .ok (.more after) => readNamed names read after.rest.length [] start after
  | _ => refuse expected c

def readPairs {α : Type} (expected : String) (depth : Nat)
    (read : Cursor → Except Fault (α × Cursor)) (c : Cursor) :
    Except Fault (List (String × α) × Cursor) :=
  let c := skipBlanks c
  match c.rest with
  | '{' :: _ =>
    if depth ≤ 1 then c.faultAhead .tooDeep
    else
      match beforeField (c.advance 1) with
      | .error fault => .error fault
      | .ok (.stop after) => .ok ([], after)
      | .ok (.more after) => loop after.rest.length after
  | _ => refuse expected c
where
  loop : Nat → Cursor → Except Fault (List (String × α) × Cursor)
    | 0, c => c.faultAhead .endInObject
    | fuel + 1, c => do
      let (key, after) ← readLiteral c
      let (value, rest) ← read (← readColon after)
      match ← afterField rest with
      | .stop later => return ([(key, value)], later)
      | .more later =>
        let (pairs, last) ← loop fuel later
        return ((key, value) :: pairs, last)

def readWhole {α : Type} (read : Cursor → Except Fault (α × Cursor)) (text : String) :
    Except Fault α := do
  let (value, after) ← read (.ofText text)
  readEnd after
  return value

end Playground.Json
