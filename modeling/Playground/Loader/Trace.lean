import Playground.Loader.Session

namespace Playground

/-- A render request on one line: the engine, target, number and content, then hints and files. -/
def RenderRequest.line (engine : String) (r : RenderRequest) : String :=
  let hints := r.hints.map fun (name, value) => " " ++ name ++ "=" ++ value
  let files := r.files.map fun file => " [" ++ file.name ++ "=" ++ file.content ++ "]"
  engine ++ ":" ++ r.output ++ "#" ++ toString r.index ++ ":" ++ r.content ++
    String.join hints ++ String.join files

namespace Event

def callLine? : Event → Option String
  | render engine request => some (request.line engine)
  | transform engine source => some (engine ++ ":" ++ source)
  | load _ | fetch _ => none

def loadedUrl? : Event → Option String
  | load url => some url
  | _ => none

end Event

end Playground
