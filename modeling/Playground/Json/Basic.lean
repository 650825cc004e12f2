import Playground.Number.Shortest
import Playground.Pairs

/-! JSON values. Objects keep the order of their fields. -/

namespace Playground

inductive Json
  | null
  | bool (b : Bool)
  /-- A whole number between -2^63 and 2^64, both ends excluded at the top. -/
  | int (n : Int)
  | float (x : Binary64)
  | str (s : String)
  | arr (items : List Json)
  | obj (fields : List (String × Json))
  deriving Inhabited, Repr

namespace Json

def emptyObject : Json := obj []

def field? (j : Json) (key : String) : Option Json :=
  match j with
  | obj fields => fields.lookup key
  | _ => none

def string? : Json → Option String
  | str s => some s
  | _ => none

def bool? : Json → Option Bool
  | bool b => some b
  | _ => none

def natural? : Json → Option Nat
  | int n => if 0 ≤ n ∧ n < Nat.pow 2 64 then some n.toNat else none
  | _ => none

mutual

def collapse : Json → Json
  | null => null
  | bool b => bool b
  | int n => int n
  | float x => float x
  | str s => str s
  | arr items => arr (collapseItems items)
  | obj fields => obj (collapsePairs (collapseFields fields))

def collapseItems : List Json → List Json
  | [] => []
  | j :: rest => collapse j :: collapseItems rest

def collapseFields : List (String × Json) → List (String × Json)
  | [] => []
  | (k, v) :: rest => (k, collapse v) :: collapseFields rest

end

end Json

end Playground
