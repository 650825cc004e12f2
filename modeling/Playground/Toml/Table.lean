import Playground.Json.Basic
import Playground.Pairs

/-! Tables while they are put together. -/

namespace Playground.Toml

inductive TableKind
  /-- Under its own header, or the whole document. -/
  | headed
  | implied
  | dotted
  deriving DecidableEq, Repr

inductive Node
  | value (j : Json)
  | table (kind : TableKind) (entries : List (String × Node))
  /-- Tables under a doubled header, the latest first. -/
  | tables (items : List (List (String × Node)))
  deriving Inhabited

abbrev Entries := List (String × Node)

mutual

def Node.toJson : Node → Json
  | .value j => j
  | .table _ entries => .obj (entriesToFields entries)
  | .tables items => .arr (itemsToList items).reverse

def entriesToFields : List (String × Node) → List (String × Json)
  | [] => []
  | (k, v) :: rest => (k, v.toJson) :: entriesToFields rest

def itemsToList : List (List (String × Node)) → List Json
  | [] => []
  | entries :: rest => .obj (entriesToFields entries) :: itemsToList rest

end

structure Spot where
  entries : Entries
  isDotted : Bool

/-- Goes down a path from a table, making the tables that are missing, and changes what it finds
there. With `dotted` the path is that of a key, else that of a header. -/
def changeAt (dotted : Bool) (change : Spot → Option Entries) : List String → Spot → Option Entries
  | [], spot => change spot
  | part :: more, spot => do
    let down (kind : TableKind) (entries : Entries) : Option Node :=
      (changeAt dotted change more ⟨entries, kind == .dotted⟩).map (Node.table kind)
    let next ← match spot.entries.lookup part with
      | none => down (if dotted then .dotted else .implied) []
      | some (.table kind entries) =>
        if dotted && kind == .headed then none else down kind entries
      | some (.tables (latest :: earlier)) =>
        (changeAt dotted change more ⟨latest, false⟩).map fun changed =>
          Node.tables (changed :: earlier)
      | some _ => none
    return upsert part next spot.entries

/-- Puts a value under a key; a key given twice is refused, and so is one that goes into a table
which was not made by such keys. -/
def putValue (path : List String) (key : String) (value : Json) (entries : Entries) :
    Option Entries :=
  changeAt true (fun spot =>
    if spot.isDotted == path.isEmpty then none
    else if (spot.entries.lookup key).isSome then none
    else some (spot.entries ++ [(key, .value value)])) path ⟨entries, false⟩

/-- Takes out the table a header names, if it was only implied; what else stands there is in the
way. -/
def openTable (path : List String) (key : String) (root : Entries) : Option (Entries × Entries) := do
  let found ← findAt path root
  match found.lookup key with
  | none => return ([], ← changeAt false (fun spot => some spot.entries) path ⟨root, false⟩)
  | some (.table .implied entries) =>
    let without (spot : Spot) := some (spot.entries.filter fun e => e.1 != key)
    return (entries, ← changeAt false without path ⟨root, false⟩)
  | some _ => none
where
  /-- The entries at the end of a path; none yet where it is not there. -/
  findAt : List String → Entries → Option Entries
    | [], entries => some entries
    | part :: more, entries =>
      match entries.lookup part with
      | none => some []
      | some (.table _ inner) => findAt more inner
      | some (.tables (latest :: _)) => findAt more latest
      | some _ => none

def closeTable (path : List String) (key : String) (table root : Entries) : Option Entries :=
  changeAt false (fun spot =>
    match spot.entries.lookup key with
    | none => some (spot.entries ++ [(key, .table .headed table)])
    | some (.table .implied _) => some (upsert key (.table .headed table) spot.entries)
    | some _ => none) path ⟨root, false⟩

/-- Whether a doubled header may stand here: nothing is there yet, or more of its tables. -/
def openItem (path : List String) (key : String) (root : Entries) : Option Entries :=
  changeAt false (fun spot =>
    match spot.entries.lookup key with
    | none => some (spot.entries ++ [(key, .tables [])])
    | some (.tables _) => some spot.entries
    | some _ => none) path ⟨root, false⟩

def closeItem (path : List String) (key : String) (table root : Entries) : Option Entries :=
  changeAt false (fun spot =>
    match spot.entries.lookup key with
    | some (.tables items) => some (upsert key (.tables (table :: items)) spot.entries)
    | _ => none) path ⟨root, false⟩

end Playground.Toml
