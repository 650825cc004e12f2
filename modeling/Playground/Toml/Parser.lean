import Playground.Toml.Moment
import Playground.Toml.Number
import Playground.Toml.Table

namespace Playground.Toml

def skipLines : Nat → List Char → Option (List Char)
  | 0, cs => some cs
  | fuel + 1, cs =>
    match skipSpace cs with
    | '#' :: rest => do skipLines fuel (← newline? (skipComment ('#' :: rest)))
    | rest =>
      match newline? rest with
      | some after => skipLines fuel after
      | none => some rest

def skipBetween (cs : List Char) : Option (List Char) := skipLines cs.length cs

def readAtom (cs : List Char) : Option (Json × List Char) :=
  match cs with
  | '"' :: _ | '\'' :: _ => (readText cs).map fun (s, rest) => (.str s, rest)
  | 't' :: rest => (Text.dropLead? "rue".toList rest).map fun rest => (.bool true, rest)
  | 'f' :: rest => (Text.dropLead? "alse".toList rest).map fun rest => (.bool false, rest)
  | _ =>
    match readMoment cs with
    | some found => some found
    | none => readNumber cs

mutual

/-- A value. `fuel` bounds the steps and `depth` the brackets that may still open. -/
def readValue : Nat → Nat → Reader Json
  | 0, _, _ => none
  | fuel + 1, depth, cs =>
    match cs with
    | '[' :: rest =>
      if depth ≤ 1 then none
      else (readItems fuel (depth - 1) rest).map fun (items, rest) => (.arr items, rest)
    | '{' :: rest =>
      if depth ≤ 1 then none
      else
        match skipSpace rest with
        | '}' :: rest => some (.obj [], rest)
        | rest =>
          (readFields fuel (depth - 1) [] rest).map fun (entries, rest) =>
            (.obj (entriesToFields entries), rest)
    | _ => readAtom cs

def readItems : Nat → Nat → Reader (List Json)
  | 0, _, _ => none
  | fuel + 1, depth, cs => do
    match ← skipBetween cs with
    | ']' :: rest => return ([], rest)
    | start =>
      let (item, rest) ← readValue fuel depth start
      match ← skipBetween rest with
      | ']' :: rest => return ([item], rest)
      | ',' :: rest =>
        let (items, rest) ← readItems fuel depth rest
        return (item :: items, rest)
      | _ => none

def readFields : Nat → Nat → Entries → Reader Entries
  | 0, _, _, _ => none
  | fuel + 1, depth, entries, cs => do
    let ((path, key), rest) ← readKey (skipSpace cs)
    let rest ← expect '=' rest
    let (value, rest) ← readValue fuel depth (skipSpace rest)
    let entries ← putValue path key value entries
    match skipSpace rest with
    | '}' :: rest => return (entries, rest)
    | ',' :: rest => readFields fuel depth entries rest
    | _ => none

end

inductive Section
  | document
  | table (path : List String) (key : String)
  | item (path : List String) (key : String)
  deriving DecidableEq, Repr

/-- A document half read: the finished part, and the table that is being filled. -/
structure Draft where
  root : Entries
  current : Entries
  place : Section

namespace Draft

def empty : Draft := ⟨[], [], .document⟩

def close (d : Draft) : Option Entries :=
  match d.place with
  | .document => some d.current
  | .table path key => closeTable path key d.current d.root
  | .item path key => closeItem path key d.current d.root

def beginTable (path : List String) (key : String) (d : Draft) : Option Draft := do
  let (current, root) ← openTable path key (← d.close)
  return ⟨root, current, .table path key⟩

def beginItem (path : List String) (key : String) (d : Draft) : Option Draft := do
  return ⟨← openItem path key (← d.close), [], .item path key⟩

end Draft

def readLine (d : Draft) (cs : List Char) : Option (Draft × List Char) := do
  match skipSpace cs with
  | '[' :: '[' :: rest =>
    let ((path, key), rest) ← readKey (skipSpace rest)
    let rest ← finishLine? (← expect ']' (← expect ']' rest))
    return (← d.beginItem path key, rest)
  | '[' :: rest =>
    let ((path, key), rest) ← readKey (skipSpace rest)
    let rest ← finishLine? (← expect ']' rest)
    return (← d.beginTable path key, rest)
  | start =>
    match finishLine? start with
    | some rest => return (d, rest)
    | none =>
      let ((path, key), rest) ← readKey start
      let rest ← expect '=' rest
      let (value, rest) ← readValue (2 * rest.length + 2) depthLimit (skipSpace rest)
      let current ← putValue path key value d.current
      return ({ d with current := current }, ← finishLine? rest)

def readLines : Nat → Draft → List Char → Option Draft
  | _, d, [] => some d
  | 0, _, _ => none
  | fuel + 1, d, cs => do
    let (d, rest) ← readLine d cs
    readLines fuel d rest

def parse (text : String) : Option Json := do
  let cs := match text.toList with
    | '\ufeff' :: rest => rest
    | cs => cs
  let d ← readLines (cs.length + 1) .empty cs
  return .obj (entriesToFields (← d.close))

end Playground.Toml
