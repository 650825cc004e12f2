import Playground.Json.Basic

/-! Records and tagged choices as JSON values. -/

namespace Playground.Json

def repeats (key : String) (fields : List (String × Json)) : Bool :=
  1 < (fields.filter fun f => f.1 == key).length

/-- The fields of an object, none for those it leaves out; no field may be given twice. -/
def named? (names : List String) : Json → Option (List (Option Json))
  | obj fields =>
    if names.any (repeats · fields) then none else some (names.map fun name => fields.lookup name)
  | _ => none

def record? (names : List String) : Json → Option (List (Option Json))
  | arr items => if items.length = names.length then some (items.map some) else none
  | other => named? names other

def recordWithDefaults? (names : List String) : Json → Option (List (Option Json))
  | arr items =>
    if items.length ≤ names.length then
      some (items.map some ++ List.replicate (names.length - items.length) none)
    else none
  | other => record? names other

def choice? : Json → Option (String × Option Json)
  | str tag => some (tag, none)
  | obj [(tag, content)] => some (tag, some content)
  | _ => none

def given? {α : Type} (read : Json → Option α) (default_ : α) : Option Json → Option α
  | none => some default_
  | some value => read value

def optional? {α : Type} (read : Json → Option α) : Option Json → Option (Option α)
  | none | some null => some none
  | some value => (read value).map some

def ofOption {α : Type} (write : α → Json) : Option α → Json
  | none => null
  | some a => write a

def items? : Json → Option (List Json)
  | arr items => some items
  | _ => none

end Playground.Json
