import Playground.Json.Basic
import Playground.Language.Literal
import Playground.Text.Offset

/-! From the JSX of a document to a module that shows it. -/

namespace Playground

namespace Text

/-- Leaves out every piece that `after?` finds at its start, from the left; it answers with what
follows the piece. -/
def dropPieces (after? : List Char → Option (List Char)) (cs : List Char) : List Char :=
  match cs with
  | [] => []
  | c :: rest =>
    match after? (c :: rest) with
    | some after =>
      if after.length ≤ rest.length then dropPieces after? after else c :: dropPieces after? rest
    | none => c :: dropPieces after? rest
termination_by cs.length

end Text

namespace Mdx

def afterDestructuring? (cs : List Char) : Option (List Char) := do
  let names ← Text.dropLead? ", \x7b".toList cs
  let (_, after) ← Text.splitAt? '}' names
  Text.dropLead? " = _components".toList after

/-- Past the last lookup in the properties that comes before a colon and ends in a semicolon. -/
def afterLookup? : List Char → Option (List Char)
  | [] => none
  | c :: rest =>
    if c = ':' then none
    else
      match afterLookup? rest with
      | some after => some after
      | none => do
        let tail ← Text.dropLead? "\x7d = props.components".toList (c :: rest)
        let (_, after) ← Text.splitAt? ';' tail
        return after

/-- Past a statement that takes names out of the components in the properties. -/
def afterStatement? (cs : List Char) : Option (List Char) := do
  afterLookup? (← Text.dropLead? "const \x7b".toList cs)

def dropLookups (jsx : String) : String :=
  String.ofList (Text.dropPieces afterStatement? (Text.dropPieces afterDestructuring? jsx.toList))

def wrap (jsx : String) : String :=
  "import React from \"react\";\nimport ReactDOM from \"react-dom\";\n" ++
    literalCode (dropLookups jsx) false ++
    "\nReactDOM.render(<MDXContent />, document.body);\n"

def moduleScript (code : String) : String := "<script type=\"module\">" ++ code ++ "</script>"

def defaultOptions : Json := .obj [("remarkPlugins", .arr [.str "remark-gfm"])]

end Mdx

end Playground
