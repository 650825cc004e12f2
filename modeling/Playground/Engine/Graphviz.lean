import Playground.Engine.Basic
import Playground.Engine.Program
import Playground.Text.Blank
import Playground.Text.Bytes

namespace Playground.Graphviz

def layouts : List String :=
  ["circo", "dot", "fdp", "sfdp", "neato", "osage", "patchwork", "twopi"]

def layout (r : RenderRequest) : Except EngineError String :=
  let name := (r.hints.lookup "layout").getD "dot"
  if name ∈ layouts then .ok name
  else .error (.plain ("unknown graphviz layout `" ++ name ++ "`"))

def finish (p : ProgramResult) : Except EngineError Rendered :=
  if p.success then
    match textOf? p.output with
    | some svg => .ok (.markup svg)
    | none => .error (.plain "dot produced non-UTF-8 output")
  else .error (.plain (trimBlanks (lossyText p.errors)))

def render (dot : Program) (r : RenderRequest) : Except EngineError Rendered := do
  let name ← layout r
  match dot.run ⟨["-K" ++ name, "-Tsvg"], "", r.content⟩ .empty with
  | .error e => .error (.plain ("failed to start dot: " ++ e))
  | .ok p => finish p

def engine (dot : Program) : GraphEngine := ⟨"graphviz", render dot⟩

def locate (tools : Toolbox) : Except String GraphEngine :=
  match tools.locate "dot" with
  | .ok dot => .ok (engine dot)
  | .error e => .error ("graphviz `dot` executable not found: " ++ e)

end Playground.Graphviz
