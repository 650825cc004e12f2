import Playground.Text.Blank

namespace Playground

inductive PathComponent
  | root
  | current
  | parent
  | name (text : String)
  deriving DecidableEq, Repr

namespace Path

def segments : List Char → List (List Char)
  | [] => [[]]
  | c :: rest =>
    if c = '/' then [] :: segments rest
    else
      match segments rest with
      | [] => [[c]]
      | first :: more => (c :: first) :: more

def component? (segment : List Char) : Option PathComponent :=
  if segment = [] ∨ segment = ['.'] then none
  else if segment = ['.', '.'] then some .parent
  else some (.name (String.ofList segment))

def components (path : String) : List PathComponent :=
  match segments path.toList with
  | [] => []
  | first :: more =>
    let head : List PathComponent :=
      if first = [] then if path.isEmpty then [] else [.root]
      else if first = ['.'] then [.current]
      else (component? first).toList
    head ++ more.filterMap component?

def fileName? (path : String) : Option String :=
  match (components path).getLast? with
  | some (.name text) => some text
  | _ => none

def extension? (path : String) : Option String := do
  let name ← fileName? path
  let reversed := name.toList.reverse
  match reversed.dropWhile (· != '.') with
  | _ :: _ :: _ => some (String.ofList (reversed.takeWhile (· != '.')).reverse)
  | _ => none

end Path

end Playground
