import Playground.Graph.Pass

/-! Tables of handlers run over a document, at once or in two stages. -/

namespace Playground

open Html

abbrev GraphPipeline := List GraphHandler

namespace GraphPipeline

def inputFileTypes (p : GraphPipeline) : List String := p.filterMap (·.inputFiles)

def restoreText (p : GraphPipeline) (doc : String) : Restored := restore doc p.inputFileTypes

/-- The document without its input-file markers, whether or not their kind has run. -/
def stripInputFiles (p : GraphPipeline) (doc : String) : String :=
  withEdits doc (((scan doc).filter (isScriptOfAny p.inputFileTypes)).map Edit.remove)

def runHandlers (env : Surroundings) (emit : Emit) (satisfied : List String) :
    List GraphHandler → PassOutput → Session → Except EngineLoadError PassOutput × Session
  | [], out, s => (.ok out, s)
  | h :: rest, out, s =>
    match renderKind env h out.text emit satisfied s with
    | (.error error, s) => (.error error, s)
    | (.ok pass, s) => runHandlers env emit satisfied rest ⟨pass.text, out.errors ++ pass.errors⟩ s

def restoreAndRender (env : Surroundings) (p : GraphPipeline) (chosen : GraphHandler → Bool)
    (doc : String) (s : Session) : Except EngineLoadError PassOutput × Session :=
  let restored := p.restoreText doc
  let (result, s) := runHandlers env .substitute restored.targets (p.filter chosen)
    ⟨restored.text, restored.errors⟩ s
  (result.map fun out => { out with text := p.stripInputFiles out.text }, s)

/-- Everything at once. -/
def run (env : Surroundings) (p : GraphPipeline) (doc : String) (s : Session) :
    Except EngineLoadError PassOutput × Session :=
  restoreAndRender env p (fun _ => true) doc s

/-- The isolated stage. -/
def runIsolated (env : Surroundings) (p : GraphPipeline) (doc : String) (s : Session) :
    Except EngineLoadError PassOutput × Session :=
  runHandlers env .serialize [] (p.filter (·.isolated)) ⟨doc, []⟩ s

/-- The main stage. -/
def runMain (env : Surroundings) (p : GraphPipeline) (doc : String) (s : Session) :
    Except EngineLoadError PassOutput × Session :=
  restoreAndRender env p (fun h => !h.isolated) doc s

end GraphPipeline

end Playground
