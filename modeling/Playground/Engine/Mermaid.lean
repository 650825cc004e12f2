import Playground.Engine.Basic
import Playground.Text.Blank

namespace Playground.Mermaid

def render (draw : String → Except EngineError String) (r : RenderRequest) :
    Except EngineError Rendered :=
  let source := trimBlanks r.content
  if source.isEmpty then .error (.plain "empty mermaid diagram") else (draw source).map .markup

def engine (draw : String → Except EngineError String) : GraphEngine := ⟨"mermaid", render draw⟩

def noLayout : String → Except EngineError String :=
  fun _ => .error (.plain "mermaid diagrams cannot be laid out here")

end Playground.Mermaid
