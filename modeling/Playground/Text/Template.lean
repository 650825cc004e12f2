import Playground.Text.Replace

namespace Playground

namespace Text

/-- Puts values in the place of names in one pass from the left; what was put in is not read again,
and other braces stand for themselves. `fuel` bounds the characters. -/
def fill (values : List (List Char × List Char)) : Nat → List Char → List Char
  | 0, cs => cs
  | _, [] => []
  | fuel + 1, c :: rest =>
    let found := values.findSome? fun (name, value) =>
      (dropLead? ('{' :: name ++ ['}']) (c :: rest)).map fun after => (value, after)
    match found with
    | some (value, after) => value ++ fill values fuel after
    | none => c :: fill values fuel rest

end Text

def fillTemplate (template : String) (values : List (String × String)) : String :=
  let cs := template.toList
  String.ofList (Text.fill (values.map fun (n, v) => (n.toList, v.toList)) cs.length cs)

end Playground
